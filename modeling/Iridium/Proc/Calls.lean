import Iridium.Proc.Queue

/-!
# What the calls do

One lemma for each function of `proc/proc.c` that changes the queue or the signals: what
the state is when the function has returned.
-/

namespace Iridium

/-! ### Spawning -/

section Spawn

variable {k k' : Kernel} {l : List ℕ} {rip : UInt64} {path : List UInt8} {permissions : PPERM_T}
  {uses_console : UInt8} {e : ERRNO_T}

/-- The caller asks for permissions and may not give any. -/
def denied (k : Kernel) (permissions : PPERM_T) : Bool :=
  permissions != 0 && !k.current.holds PPERM_PERM

/-- **What a spawn makes**: the new descriptor at `p`, its context `ctx`, and memory `mm`. -/
structure Spawned (k : Kernel) (rip : UInt64) (path : List UInt8) (p : ℕ) (ctx : ℕ → UInt64) (mm : Mm) :
    Prop where
  fresh : k.frontier < p
  below : p ≤ DATA_START mm.heap.heap_head
  grows : k.mm.Grows mm
  /-- The top-level table is one that `mkpml4` made, with the frames left after the
  descriptor was allocated. -/
  cr3 : ∃ m₁ vm, kmalloc k.mm PROCESS_SIZE = .ok (p, m₁) ∧ mkpml4 m₁.vm = .ok (ctx PCTX_CR3, vm) ∧
    vm.pmm.Takes mm.vm.pmm
  /-- The program counter is the one asked for, or the entry point of an acceptable file. -/
  rip_given : rip ≠ 0 → ctx PCTX_RIP = rip
  rip_file : rip = 0 → acceptable_image k.mm path = true → ctx PCTX_RIP = entry_point k.mm path

/-- A heap without free blocks, and its counter where it began. -/
structure Mm.HeapOk (m : Mm) : Prop where
  used : m.heap.Used m.heap.heap_tail
  bytes_allocated : m.heap.bytes_allocated = 0

theorem Mm.HeapOk.grows {m m' : Mm} (h : m.HeapOk) (hg : m.Grows m') : m'.HeapOk :=
  ⟨hg.used h.used, hg.bytes_allocated.trans h.bytes_allocated⟩

/-- The bytes of the heap are never used up. -/
theorem Mm.HeapOk.kmalloc_ok {m m' : Mm} (h : m.HeapOk) {n_bytes : UInt64} {p : ℕ}
    (hn : n_bytes ≤ HEAP_SIZE) (hk : kmalloc m n_bytes = .ok (p, m')) :
    m.Grows m' ∧ p = DATA_START m'.heap.heap_head ∧ DATA_START m.heap.heap_head < p := by
  obtain ⟨hg, ⟨-, hb, -⟩ | ⟨hp, hle⟩⟩ := Iridium.kmalloc_ok h.used hk
  · rw [h.bytes_allocated, UInt64.zero_add] at hb
    exact absurd hn (UInt64.not_le.2 hb)
  · refine ⟨hg, hp, ?_⟩
    rw [hp]
    unfold DATA_START KHEAP_BLOCK_SIZE at *
    omega

theorem iret_frame_takes {s s' : Vm} {stack rsp rflags rip : UInt64}
    (h : iret_frame s stack rsp rflags rip = .ok s') : s.Takes s' := by
  obtain ⟨s₁, h₁, h⟩ := bind_ok.1 h
  obtain ⟨s₂, h₂, h⟩ := bind_ok.1 h
  obtain ⟨s₃, h₃, h⟩ := bind_ok.1 h
  obtain ⟨s₄, h₄, h⟩ := bind_ok.1 h
  exact (((write64_takes h₁).trans (write64_takes h₂)).trans (write64_takes h₃)).trans
    ((write64_takes h₄).trans (write64_takes h))

theorem setup_stack_ok {m m' : Mm} {old ctx : ℕ → UInt64} {cr3 old_cr3 rflags : UInt64} (hm : m.HeapOk)
    (h : setup_stack m old cr3 old_cr3 rflags rip = .ok (ctx, m')) :
    m'.vm.cr3 = old_cr3 ∧ m.Grows { m' with vm := { m'.vm with cr3 := m.vm.cr3 } } ∧
      ctx PCTX_CR3 = cr3 ∧ ctx PCTX_RIP = rip := by
  obtain ⟨⟨stack, m₂⟩, h₂, h⟩ := bind_ok.1 h
  obtain ⟨_, -, h⟩ := bind_ok.1 h
  obtain ⟨vm, h₃, h⟩ := bind_ok.1 h
  obtain ⟨rfl, rfl⟩ := Prod.mk.inj (pure_ok.1 h)
  have hg := (kmalloc_user_ok hm.used h₂).trans (.of_vm (iret_frame_takes h₃))
  exact ⟨rfl, ⟨⟨rfl, hg.vm.pmm⟩, hg.module, hg.initrd, hg.bytes_allocated, hg.head, hg.used⟩, rfl, rfl⟩

/-- **The context of a new process**: a table from `mkpml4`, and the program counter asked
for or found. The address space in use is the old one again. -/
theorem setup_context_ok {m m' : Mm} {old ctx : ℕ → UInt64} {rflags : UInt64} (hm : m.HeapOk)
    (h : setup_context m old rflags rip path = .ok (ctx, m')) :
    m.Grows m' ∧ (∃ vm, mkpml4 m.vm = .ok (ctx PCTX_CR3, vm) ∧ vm.pmm.Takes m'.vm.pmm) ∧
      (rip ≠ 0 → ctx PCTX_RIP = rip) ∧
      (rip = 0 → acceptable_image m path = true → ctx PCTX_RIP = entry_point m path) := by
  obtain ⟨⟨cr3, vm⟩, h₁, h⟩ := bind_ok.1 h
  have ht := mkpml4_takes h₁
  dsimp only at h
  generalize hm₁ : ({ m with vm := { vm with cr3 := cr3 } } : Mm) = m₁ at h
  have hok : m₁.HeapOk := hm₁ ▸ ⟨hm.used, hm.bytes_allocated⟩
  have hpmm : m₁.vm.pmm = vm.pmm := by rw [← hm₁]
  have himg : acceptable_image m₁ path = acceptable_image m path ∧
      entry_point m₁ path = entry_point m path := by
    rw [← hm₁]
    exact ⟨rfl, rfl⟩
  have rest : ∀ {entry : UInt64} {m₂ : Mm}, m₁.Grows m₂ →
      setup_stack m₂ old cr3 vm.cr3 rflags entry = .ok (ctx, m') →
      m.Grows m' ∧ vm.pmm.Takes m'.vm.pmm ∧ ctx PCTX_CR3 = cr3 ∧ ctx PCTX_RIP = entry := by
    intro entry m₂ hg h
    obtain ⟨hcr3, hg', hc, hr⟩ := setup_stack_ok (hok.grows hg) h
    have hall := hg.trans hg'
    have hp : vm.pmm.Takes m'.vm.pmm := hpmm ▸ hall.vm.pmm
    subst hm₁
    exact ⟨⟨⟨hcr3.trans ht.cr3, ht.pmm.trans hp⟩, hall.module, hall.initrd, hall.bytes_allocated,
      hall.head, hall.used⟩, hp, hc, hr⟩
  split at h
  next h0 =>
    obtain ⟨⟨entry, m₂⟩, he, h⟩ := bind_ok.1 h
    obtain ⟨hg, hentry⟩ := elf_get_entry_ok hok.used he
    obtain ⟨hg', hp, hc, hr⟩ := rest hg h
    exact ⟨hg', ⟨vm, hc ▸ h₁, hp⟩, fun hne => absurd h0 hne,
      fun _ ha => hr.trans ((hentry (himg.1.trans ha)).trans himg.2)⟩
  next h0 =>
    obtain ⟨⟨entry, m₂⟩, he, h⟩ := bind_ok.1 h
    obtain ⟨rfl, rfl⟩ := Prod.mk.inj (pure_ok.1 he)
    obtain ⟨hg', hp, hc, hr⟩ := rest (.refl _) h
    exact ⟨hg', ⟨vm, hc ▸ h₁, hp⟩, fun _ => hr, fun he => absurd he h0⟩

/-- The descriptor of a process just spawned at `p`. -/
def spawned (k : Kernel) (p : ℕ) (permissions : PPERM_T) (uses_console : UInt8) (ctx : ℕ → UInt64) :
    Process :=
  { new_process (k.procs p) k.next_pid permissions uses_console k.queue_head k.queue_base with
    context := ctx }

/-- The descriptor of a signal handler just spawned at `p` for the process at `owner`. -/
def spawned_handler (k : Kernel) (p owner : ℕ) (ctx : ℕ → UInt64) : Process :=
  make_handler (spawned k p 0 1 ctx) (k.procs owner) owner k.queue_base

theorem spawned_isHandler {p : ℕ} {ctx : ℕ → UInt64} :
    (spawned k p permissions uses_console ctx).isHandler = false := by
  simp [Process.isHandler, spawned, new_process]

theorem spawned_handler_isHandler {p owner : ℕ} {ctx : ℕ → UInt64} :
    (spawned_handler k p owner ctx).isHandler = true := by
  simp [Process.isHandler, spawned_handler, make_handler, PFLAG_SIGNAL_HANDLER]

theorem append_eq {p : ℕ} {mm : Mm} (hne : k.queue_head ≠ p) :
    append k p mm permissions uses_console = k.link p (new_process (k.procs p) k.next_pid permissions
      uses_console k.queue_head k.queue_base) mm := by
  simp [append, Kernel.modify, Kernel.link, Function.update_of_ne hne.symm]
  rfl

/-- On a linked queue the search for the head's PID finds somebody: the assertion after a spawn holds. -/
theorem locate_head {α : Type} (hl : k.Linked l) (rest : Kern α) : (do
    ASSERT (← locate_proc k k.head.pid).isSome
    rest) = rest := by
  have hsome : (l.find? fun p => (k.procs p).pid == k.head.pid).isSome = true := by
    rw [List.find?_isSome]
    exact ⟨k.queue_head, hl.ring.head_mem, by simp [Kernel.head]⟩
  rw [hl.locate_proc]
  show (ASSERT _ >>= fun _ => rest) = rest
  rw [hsome]
  rfl

/-- What a spawn has of memory: a block for the descriptor, and then an address space and a stack. -/
def spawn_memory (k : Kernel) (rip : UInt64) (path : List UInt8) : Kern (ℕ × (ℕ → UInt64) × Mm) := do
  let (p, m) ← kmalloc k.mm PROCESS_SIZE
  let r ← setup_context m (k.procs p).context k.rflags rip path
  return (p, r)

theorem spawn_memory_ok {p : ℕ} {ctx : ℕ → UInt64} {mm : Mm} (hk : k.mm.HeapOk)
    (h : spawn_memory k rip path = .ok (p, ctx, mm)) : Spawned k rip path p ctx mm := by
  obtain ⟨⟨p', m₁⟩, h₁, h⟩ := bind_ok.1 h
  obtain ⟨r, h₂, h⟩ := bind_ok.1 h
  obtain ⟨rfl, rfl⟩ := Prod.mk.inj (pure_ok.1 h)
  obtain ⟨hg₁, hp, hlt⟩ := hk.kmalloc_ok (by decide) h₁
  obtain ⟨hg₂, ⟨vm, hvm, htakes⟩, hr, hf⟩ := setup_context_ok (m := m₁) (hk.grows hg₁) h₂
  refine ⟨hlt, ?_, hg₁.trans hg₂, ⟨m₁, vm, h₁, hvm, htakes⟩, hr, fun h0 ha => ?_⟩
  · rw [hp]
    exact Nat.add_le_add_right hg₂.head _
  · exact (hf h0 ((hg₁.image path).1.trans ha)).trans (hg₁.image path).2

/-- **A spawn** is denied, or has its memory and links the new process behind the head. -/
theorem _spawn_eq (hl : k.Linked l) (hk : k.mm.HeapOk) : _spawn k rip path permissions uses_console =
    if denied k permissions then pure (-EPERM, k)
    else spawn_memory k rip path >>= fun r =>
      pure (EXIT_SUCCESS, k.link r.1 (spawned k r.1 permissions uses_console r.2.1) r.2.2) := by
  have hdenied : (permissions ≠ 0 ∧ (!k.current.holds PPERM_PERM) = true) ↔ denied k permissions = true := by
    simp [denied]
  unfold _spawn spawn_memory
  simp only [hdenied]
  split
  · rfl
  cases hp : kmalloc k.mm PROCESS_SIZE with
  | error e => rfl
  | ok r =>
    obtain ⟨p, m⟩ := r
    obtain ⟨-, hpos, hlt⟩ := hk.kmalloc_ok (by decide) hp
    have h0 : decide (p ≠ 0) = true := decide_eq_true (by omega)
    have hlink : (append k p m permissions uses_console).Linked (l ++ [p]) := by
      rw [append_eq (hl.fresh_ne hlt)]
      exact hl.link hlt (Nat.le_of_eq hpos) rfl rfl
    have hctx : ((append k p m permissions uses_console).procs p).context = (k.procs p).context := by
      rw [append_eq (hl.fresh_ne hlt), Kernel.link_procs_self]
      rfl
    show (ASSERT (decide (p ≠ 0)) >>= fun _ => _) = _
    rw [h0]
    refine (locate_head hlink _).trans ?_
    rw [hctx]
    show (setup_context m (k.procs p).context k.rflags rip path >>= _) =
      (setup_context m (k.procs p).context k.rflags rip path >>= fun r => pure (p, r)) >>= _
    cases setup_context m (k.procs p).context k.rflags rip path with
    | error e => rfl
    | ok r =>
      rw [append_eq (hl.fresh_ne hlt)]
      show Except.ok _ = Except.ok _
      simp [Kernel.modify, Kernel.link, spawned, Function.update_idem]

/-- **A spawn that returns** was denied, or has linked a new process behind the head. -/
theorem _spawn_ok (hl : k.Linked l) (hk : k.mm.HeapOk)
    (h : _spawn k rip path permissions uses_console = .ok (e, k')) :
    (denied k permissions = true ∧ e = -EPERM ∧ k' = k) ∨
      (denied k permissions = false ∧ e = EXIT_SUCCESS ∧ ∃ p ctx mm, Spawned k rip path p ctx mm ∧
        k' = k.link p (spawned k p permissions uses_console ctx) mm) := by
  rw [_spawn_eq hl hk] at h
  split at h
  next hd =>
    obtain ⟨rfl, rfl⟩ := Prod.mk.inj (pure_ok.1 h)
    exact .inl ⟨hd, rfl, rfl⟩
  next hd =>
    obtain ⟨⟨p, ctx, mm⟩, hr, h⟩ := bind_ok.1 h
    obtain ⟨rfl, rfl⟩ := Prod.mk.inj (pure_ok.1 h)
    exact .inr ⟨Bool.eq_false_iff.2 hd, rfl, p, ctx, mm, spawn_memory_ok hk hr, rfl⟩

/-- **A spawn from a file that returns** answers `-EPERM`, or the PID of the new process. -/
theorem _initrd_spawn_ok {pid : PID_T} (hl : k.Linked l) (hk : k.mm.HeapOk)
    (h : _initrd_spawn k path permissions uses_console = .ok (pid, k')) :
    (denied k permissions = true ∧ pid = -EPERM ∧ k' = k) ∨
      (denied k permissions = false ∧ pid = k.next_pid ∧ ∃ p ctx mm, Spawned k 0 path p ctx mm ∧
        k' = k.link p (spawned k p permissions uses_console ctx) mm) := by
  obtain ⟨⟨e, k₁⟩, h₁, h₂⟩ := bind_ok.1 h
  rcases _spawn_ok hl hk h₁ with ⟨hd, rfl, rfl⟩ | ⟨hd, rfl, p, ctx, mm, hs, rfl⟩
  · obtain ⟨rfl, rfl⟩ := Prod.mk.inj (pure_ok.1 h₂)
    exact .inl ⟨hd, rfl, rfl⟩
  · obtain ⟨rfl, rfl⟩ := Prod.mk.inj (pure_ok.1 h₂)
    refine .inr ⟨hd, ?_, p, ctx, mm, hs, rfl⟩
    show ((k.link p _ mm).procs p).pid = _
    rw [Kernel.link_procs_self]
    rfl

/-- What linking leaves of a descriptor for `make_handler` to copy. -/
theorem make_handler_link {p owner : ℕ} {q : Process} {mm : Mm} (ho : owner ≠ p) :
    make_handler q ((k.link p q mm).procs owner) owner k.queue_base =
      make_handler q (k.procs owner) owner k.queue_base := by
  rw [Kernel.link_procs ho]
  rfl

/-- The new process made a signal handler. -/
theorem modify_link {p : ℕ} {q : Process} {mm : Mm} (f : Process → Process) :
    (k.link p q mm).modify p f = k.link p (f q) mm := by
  simp [Kernel.modify, Kernel.link, Function.update_idem]

/-- **A callback** does nothing, or has the memory of a spawn and links a signal handler behind the head. -/
theorem psignal_exec_callback_eq {owner : ℕ} (hl : k.Linked l) (hk : k.mm.HeapOk) (ho : owner ∈ l) :
    psignal_exec_callback k owner =
      if (k.procs owner).sigq.signal_callback = 0 then pure k
      else spawn_memory k (k.procs owner).sigq.signal_callback [] >>= fun r =>
        pure (k.link r.1 (spawned_handler k r.1 owner r.2.1) r.2.2) := by
  unfold psignal_exec_callback
  dsimp only
  split
  next => rfl
  rw [_spawn_eq hl hk, if_neg (by simp [denied])]
  cases hr : spawn_memory k (k.procs owner).sigq.signal_callback [] with
  | error e => rfl
  | ok r =>
    obtain ⟨p, ctx, mm⟩ := r
    have hs := spawn_memory_ok hk hr
    have hne : owner ≠ p := by
      have := hl.below _ ho
      have := hs.fresh
      omega
    have hlink : Kernel.modify (k.link p (spawned k p 0 1 ctx) mm) p
        (fun q => make_handler q ((k.link p (spawned k p 0 1 ctx) mm).procs owner) owner k.queue_base) =
          k.link p (spawned_handler k p owner ctx) mm := by
      rw [modify_link, make_handler_link hne]
      rfl
    have hlinked : (k.link p (spawned_handler k p owner ctx) mm).Linked (l ++ [p]) :=
      hl.link hs.fresh hs.below rfl rfl
    rw [← hlink] at hlinked
    exact (locate_head hlinked _).trans (congrArg Except.ok hlink)

/-- **A callback that returns** did nothing, or has linked a signal handler behind the head. -/
theorem psignal_exec_callback_ok {owner : ℕ} (hl : k.Linked l) (hk : k.mm.HeapOk) (ho : owner ∈ l)
    (h : psignal_exec_callback k owner = .ok k') :
    ((k.procs owner).sigq.signal_callback = 0 ∧ k' = k) ∨
      ((k.procs owner).sigq.signal_callback ≠ 0 ∧ ∃ p ctx mm,
        Spawned k (k.procs owner).sigq.signal_callback [] p ctx mm ∧
          k' = k.link p (spawned_handler k p owner ctx) mm) := by
  rw [psignal_exec_callback_eq hl hk ho] at h
  split at h
  next h0 => exact .inl ⟨h0, (pure_ok.1 h).symm⟩
  next h0 =>
    obtain ⟨⟨p, ctx, mm⟩, hr, h⟩ := bind_ok.1 h
    obtain rfl := pure_ok.1 h
    exact .inr ⟨h0, p, ctx, mm, spawn_memory_ok hk hr, rfl⟩

end Spawn

/-! ### Sending -/

section Send

variable {k k' : Kernel} {l : List ℕ} {dest : PID_T} {dword : UInt32} {e : ERRNO_T}

/-- The signal is put into the queue of the process at `p`. -/
def deliver (k : Kernel) (p : ℕ) (dword : UInt32) : Kernel :=
  k.modify p fun q => { q with sigq := q.sigq.push (psignal_word (sender_pid k) dword) }

/-- The queue of the process at `p` takes a signal. -/
structure Accepts (k : Kernel) (p : ℕ) : Prop where
  room : (k.procs p).sigq.next_index < PSIGNAL_QUEUE_SIZE
  unlocked : (k.procs p).sigq.rwlock ≠ 1

instance (k : Kernel) (p : ℕ) : Decidable (Accepts k p) :=
  decidable_of_iff
    ((k.procs p).sigq.next_index < PSIGNAL_QUEUE_SIZE ∧ (k.procs p).sigq.rwlock ≠ 1)
    ⟨fun h => ⟨h.1, h.2⟩, fun h => ⟨h.room, h.unlocked⟩⟩

/-- **What a send comes to.** -/
inductive Sent (k : Kernel) (l : List ℕ) (dest : PID_T) (dword : UInt32) : ERRNO_T → Kernel → Prop where
  /-- Nobody has the PID. -/
  | unknown : (∀ p ∈ l, (k.procs p).pid ≠ dest) → Sent k l dest dword (-EXIT_FAILURE) k
  /-- The recipient takes nothing. -/
  | refused {p : ℕ} {e : ERRNO_T} : l.find? (fun p => (k.procs p).pid == dest) = some p →
      ¬Accepts k p → e = -EREJECTED ∨ e = -EBUSY → Sent k l dest dword e k
  /-- The signal is queued, and there is no callback. -/
  | queued {p : ℕ} : l.find? (fun p => (k.procs p).pid == dest) = some p → Accepts k p →
      (k.procs p).sigq.signal_callback = 0 → Sent k l dest dword EXIT_SUCCESS (deliver k p dword)
  /-- The signal is queued, and a signal handler is spawned. -/
  | handled {p h : ℕ} {ctx : ℕ → UInt64} {mm : Mm} :
      l.find? (fun p => (k.procs p).pid == dest) = some p → Accepts k p →
      (k.procs p).sigq.signal_callback ≠ 0 →
      Spawned (deliver k p dword) (k.procs p).sigq.signal_callback [] h ctx mm →
      Sent k l dest dword EXIT_SUCCESS
        ((deliver k p dword).link h (spawned_handler (deliver k p dword) h p ctx) mm)

/-- What `psignal_send` does with the first process that has the PID. -/
theorem psignal_send_found (hl : k.Linked l) {p : ℕ}
    (hp : l.find? (fun p => (k.procs p).pid == dest) = some p) : psignal_send k dest dword =
      if (k.procs p).sigq.next_index ≥ PSIGNAL_QUEUE_SIZE then pure (-EREJECTED, k)
      else if (k.procs p).sigq.rwlock = 1 then pure (-EBUSY, k)
      else do return (EXIT_SUCCESS, ← psignal_exec_callback (deliver k p dword) p) := by
  unfold psignal_send
  rw [hl.locate_proc, hp]
  rfl

theorem psignal_send_ok (hl : k.Linked l) (hk : k.mm.HeapOk)
    (h : psignal_send k dest dword = .ok (e, k')) : Sent k l dest dword e k' := by
  cases hp : l.find? (fun p => (k.procs p).pid == dest) with
  | none =>
    unfold psignal_send at h
    rw [hl.locate_proc, hp] at h
    obtain ⟨rfl, rfl⟩ := Prod.mk.inj (pure_ok.1 h)
    refine .unknown fun p hm he => ?_
    simpa [he] using List.find?_eq_none.1 hp p hm
  | some p =>
    rw [psignal_send_found hl hp] at h
    split at h
    next hfull =>
      obtain ⟨rfl, rfl⟩ := Prod.mk.inj (pure_ok.1 h)
      exact .refused hp (fun ha => UInt8.not_le.2 ha.room hfull) (.inl rfl)
    next hroom =>
      split at h
      next hlock =>
        obtain ⟨rfl, rfl⟩ := Prod.mk.inj (pure_ok.1 h)
        exact .refused hp (fun ha => ha.unlocked hlock) (.inr rfl)
      next hfree =>
        have hacc : Accepts k p := ⟨UInt8.not_le.1 hroom, hfree⟩
        obtain ⟨k₁, h₁, h⟩ := bind_ok.1 h
        obtain ⟨rfl, rfl⟩ := Prod.mk.inj (pure_ok.1 h)
        have hcb : ((deliver k p dword).procs p).sigq.signal_callback =
            (k.procs p).sigq.signal_callback := by
          simp [deliver, Kernel.modify, SignalQueue.push]
        rcases psignal_exec_callback_ok (k := deliver k p dword) (hl.modify fun _ => ⟨rfl, rfl⟩) hk
          (List.mem_of_find?_eq_some hp) h₁ with ⟨h0, rfl⟩ | ⟨h0, h, ctx, mm, hs, rfl⟩
        · exact .queued hp hacc (hcb ▸ h0)
        · rw [hcb] at h0 hs
          exact .handled hp hacc h0 hs

end Send

/-! ### Reading -/

section Read

variable (k : Kernel)

/-- The word `psignal_read` takes from the owner's queue. -/
def signal_read : UInt64 :=
  let sigq := (k.procs (signal_owner k)).sigq
  let signal := sigq.queue (sigq.next_index - 1)
  if PSIGNAL_TOP_BITS_UNTOUCHED signal then signal else 0

/-- **A read** unlocks the owner's queue and, when the reader's own is not empty, pops it. -/
theorem psignal_read_eq : psignal_read k =
    if k.current.sigq.next_index = 0 then
      (0, k.modify (signal_owner k) fun q => { q with sigq := q.sigq.unlock })
    else
      (signal_read k, k.modify (signal_owner k) fun q => { q with sigq := q.sigq.unlock.pop }) := by
  have hcur : (k.modify (signal_owner k) fun q => { q with sigq := q.sigq.unlock }).current.sigq.next_index =
      k.current.sigq.next_index := by
    by_cases hc : k.current_task = signal_owner k
    · simp [Kernel.current, Kernel.modify, hc, SignalQueue.unlock]
    · simp [Kernel.current, Kernel.modify, hc]
  unfold psignal_read
  dsimp only
  rw [hcur]
  split
  · rfl
  · simp [Kernel.modify, signal_read, SignalQueue.unlock, SignalQueue.pop, Function.update_idem]

end Read

/-! ### Killing -/

section Kill

variable {k k' : Kernel} {l : List ℕ} {pid : PID_T} {p : ℕ}

/-- `kill` refuses this PID. -/
def refused (k : Kernel) (pid : PID_T) : Bool := pid = 1 || pid < 0 || pid > k.head.pid

/-- The state in which `kill` takes a process out: its frame is freed, and the next PID is
one less when the running process has the head's PID. -/
def freed (k : Kernel) (pmm : Pmm) : Kernel :=
  { k with
    next_pid := if k.current.pid = k.head.pid then k.next_pid - 1 else k.next_pid
    mm := { k.mm with vm := { k.mm.vm with pmm } } }

/-- The state at the end of `kill`, with the process at `p` killed. -/
def killed (k : Kernel) (p : ℕ) (pmm : Pmm) : Kernel :=
  { unlink (freed k pmm) (k.procs p).pid p with current_task := p, spinning := true }

/-- **`kill` of a process that is there**: its frame is freed, it is taken out, and nobody
else in the queue may have its PID. -/
theorem kill_eq (hl : k.Linked l) (hr : refused k pid = false)
    (hp : l.find? (fun p => (k.procs p).pid == pid) = some p) (hb : p ≠ k.queue_base) :
    kill k pid = do
      let pmm ← pmm_free k.mm.vm.pmm (k.procs p).cr3
      ASSERT ((l.erase p).find? fun r => (k.procs r).pid == pid).isNone
      return killed k p pmm := by
  have hpl := List.mem_of_find?_eq_some hp
  have hpid : (k.procs p).pid = pid := by simpa using List.find?_some hp
  have hne := hl.ring.prev_ne hpl hb
  obtain ⟨hr₁, hr₂⟩ : pid ≠ 1 ∧ ¬(pid < 0 ∨ pid > k.head.pid) := by
    simp only [refused, Bool.or_eq_false_iff, decide_eq_false_iff_not] at hr
    exact ⟨hr.1.1, fun h => h.elim hr.1.2 hr.2⟩
  have hfind : ∀ k₁ : Kernel, k₁.procs = (splice k p).procs → k₁.queue_base = k.queue_base →
      k₁.frontier = k.frontier → locate_proc k₁ pid =
        .ok ((l.erase p).find? fun r => (k.procs r).pid == pid) := by
    intro k₁ hprocs hbase hfr
    have hloc := Kernel.locate_proc_of_ring (k := k₁)
      (hl.ring.remove hpl hb (Kernel.splice_next hne) (Kernel.splice_prev hne)) (by rw [hprocs]) hbase
      (fun r hm => hfr ▸ hl.below r (List.mem_of_mem_erase hm)) pid
    rw [hloc, hprocs]
    simp only [Kernel.splice_pid hne]
  unfold kill
  rw [if_neg hr₁, if_neg hr₂, hl.locate_proc, hp]
  simp only [kfree_eq]
  show (do
    let pmm ← pmm_free k.mm.vm.pmm (k.procs p).cr3
    ASSERT (← locate_proc (unlink (freed k pmm) pid p) pid).isNone
    return { unlink (freed k pmm) pid p with current_task := p, spinning := true } : Kern Kernel) = _
  congr 1
  funext pmm
  dsimp only
  rw [hfind _ ?_ ?_ ?_]
  · rw [killed, hpid]
    rfl
  · rw [Kernel.unlink_eq]
    rfl
  · rw [Kernel.unlink_eq]
    rfl
  · rw [Kernel.unlink_eq]
    rfl

/-- No other process in the queue has the PID of the process at `p`. -/
def SolePid (k : Kernel) (l : List ℕ) (p : ℕ) : Prop := ∀ r ∈ l, (k.procs r).pid = (k.procs p).pid → r = p

/-- It is the process that a search for its PID finds. -/
theorem SolePid.find (hu : SolePid k l p) (hp : p ∈ l) :
    l.find? (fun r => (k.procs r).pid == (k.procs p).pid) = some p := by
  cases hf : l.find? (fun r => (k.procs r).pid == (k.procs p).pid) with
  | none => simpa using List.find?_eq_none.1 hf p hp
  | some r =>
    have hpid : (k.procs r).pid = (k.procs p).pid := by simpa using List.find?_some hf
    rw [hu r (List.mem_of_find?_eq_some hf) hpid]

theorem exit_refused (h : refused k k.current.pid = true) : exit k = .ok k := by
  unfold exit kill
  simp only [refused, Bool.or_eq_true, decide_eq_true_eq] at h
  split
  · rfl
  next h1 => rw [if_pos (h.elim (fun h => h.elim (absurd · h1) .inl) .inr)]; rfl

/-- **An exit** that is not refused, of a process whose PID nobody else has. -/
theorem exit_eq (hl : k.Linked l) (h1 : (k.procs k.queue_base).pid = 1) (hc : k.current_task ∈ l)
    (hr : refused k k.current.pid = false) (hu : SolePid k l k.current_task) :
    exit k = do return killed k k.current_task (← pmm_free k.mm.vm.pmm k.current.cr3) := by
  have hfind : l.find? (fun p => (k.procs p).pid == k.current.pid) = some k.current_task := hu.find hc
  have hb : k.current_task ≠ k.queue_base := by
    intro he
    simp [refused, Kernel.current, he, h1] at hr
  unfold exit
  rw [kill_eq hl hr hfind hb]
  have hnone : (l.erase k.current_task).find? (fun r => (k.procs r).pid == k.current.pid) = none := by
    rw [List.find?_eq_none]
    intro r hm he
    have hpid : (k.procs r).pid = k.current.pid := by simpa using he
    obtain rfl := hu r (List.mem_of_mem_erase hm) hpid
    exact hl.ring.nodup.not_mem_erase hm
  rw [hnone]
  rfl

/-- **An exit that returns** was refused, or has killed the running process, whose PID nobody
else has. -/
theorem exit_ok (hl : k.Linked l) (h1 : (k.procs k.queue_base).pid = 1) (hc : k.current_task ∈ l)
    (h : exit k = .ok k') :
    (refused k k.current.pid = true ∧ k' = k) ∨
      (refused k k.current.pid = false ∧ SolePid k l k.current_task ∧
        ∃ pmm, pmm_free k.mm.vm.pmm k.current.cr3 = .ok pmm ∧ k' = killed k k.current_task pmm) := by
  cases hr : refused k k.current.pid with
  | true =>
    rw [exit_refused hr] at h
    exact .inl ⟨rfl, (Except.ok.inj h).symm⟩
  | false =>
    refine .inr ⟨rfl, ?_⟩
    have hu : SolePid k l k.current_task := by
      cases hf : l.find? (fun p => (k.procs p).pid == k.current.pid) with
      | none => exact absurd (List.find?_eq_none.1 hf _ hc) (by simp [Kernel.current])
      | some p =>
        have hpid : (k.procs p).pid = k.current.pid := by simpa using List.find?_some hf
        have hb : p ≠ k.queue_base := by
          rintro rfl
          simp [refused, ← hpid, h1] at hr
        unfold exit at h
        rw [kill_eq hl hr hf hb] at h
        obtain ⟨_, -, h⟩ := bind_ok.1 h
        obtain ⟨_, ha, -⟩ := bind_ok.1 h
        rw [ASSERT_ok, Option.isNone_iff_eq_none, List.find?_eq_none] at ha
        -- the process found is the only one with the PID, so it is the running one
        have hsole : ∀ r ∈ l, (k.procs r).pid = k.current.pid → r = p := by
          intro r hm he
          by_contra hne
          exact ha r ((List.mem_erase_of_ne hne).2 hm) (by simp [he])
        intro r hm he
        rw [hsole r hm he, hsole _ hc rfl]
    rw [exit_eq hl h1 hc hr hu] at h
    obtain ⟨pmm, hp, h⟩ := bind_ok.1 h
    exact ⟨hu, pmm, hp, (pure_ok.1 h).symm⟩

end Kill

/-! ### The timer -/

section Timer

variable (k : Kernel) (t : Tick)

/-- What `switch_task` leaves in the context of the interrupted process. -/
def saved_context : ℕ → UInt64 :=
  let c := Function.update k.current.context PCTX_RBP (t.regs .rbp)
  let c := Function.update c PCTX_RSP t.proc_get_context.below
  let c := Function.update c PCTX_RBX (t.regs .rbx)
  let c := Function.update c PCTX_RDX t.proc_get_context.rdx
  let c := Function.update c PCTX_RCX t.proc_get_context.rcx
  let c := Function.update c PCTX_RAX t.lapic_send_eoi.rax
  let c := Function.update c PCTX_RIP (t.regs .rip)
  Function.update c PCTX_CR3 k.mm.vm.cr3

/-- The interrupted process with its registers saved. -/
def saved : Kernel := k.modify k.current_task fun q => { q with context := saved_context k t }

theorem save_context_fst : (save_context k (irq0_entry t) t).1 = saved k t := by
  simp [save_context, set_context_index, saved, Kernel.modify, Function.update_idem]
  rfl

/-- The process that runs after a timer interrupt. -/
def next_running : ℕ := k.current.next

/-- The two processes of a switch with their states changed. -/
def switched : Kernel :=
  ((saved k t).modify k.current_task fun q => { q with state := .PSTATE_READY }).modify
    (next_running k) fun q => { q with state := .PSTATE_RUNNING }

theorem next_task_fst (c : Cpu) :
    (next_task (saved k t) c t).1 = { switched k t with current_task := next_running k } := by
  have hnext : (((saved k t).modify k.current_task fun q => { q with state := .PSTATE_READY }).procs
      k.current_task).next = next_running k := by
    simp [saved, Kernel.modify, next_running, Kernel.current]
  have hstep : (next_task (saved k t) c t).1 =
      (let k₁ := (saved k t).modify k.current_task fun q => { q with state := .PSTATE_READY }
      let k₂ : Kernel := { k₁ with current_task := (k₁.procs k.current_task).next }
      k₂.modify (k₁.procs k.current_task).next fun q => { q with state := .PSTATE_RUNNING }) := rfl
  rw [hstep]
  dsimp only
  rw [hnext]
  rfl

theorem restore_context_fst (c : Cpu) : (restore_context k c).1 =
    { k with mm := { k.mm with vm := { k.mm.vm with cr3 := k.current.context PCTX_CR3 } } } := by
  simp [restore_context, index_context, Cpu.mov, PCTX_CR3]

/-- **A timer interrupt**: the registers of the running process are saved, the process after
it runs, in the address space its context names. -/
theorem irq0_isr_fst :
    (irq0_isr k t).1 =
      { switched k t with
        current_task := next_running k
        spinning := false
        mm := { k.mm with vm := { k.mm.vm with
          cr3 := ((saved k t).procs (next_running k)).context PCTX_CR3 } } } := by
  have hcr3 : ((switched k t).procs (next_running k)).context =
      ((saved k t).procs (next_running k)).context := by
    by_cases hc : next_running k = k.current_task
    · simp [switched, Kernel.modify, hc]
    · simp [switched, Kernel.modify, Function.update_of_ne hc]
  unfold irq0_isr
  have hs := save_context_fst k t
  generalize save_context k (irq0_entry t) t = kc at hs
  obtain ⟨k₁, c⟩ := kc
  obtain rfl : k₁ = saved k t := hs
  have hn := next_task_fst k t c
  dsimp only
  generalize next_task (saved k t) c t = kc at hn
  obtain ⟨k₂, c₂⟩ := kc
  obtain rfl : k₂ = { switched k t with current_task := next_running k } := hn
  have hr := restore_context_fst { switched k t with current_task := next_running k } c₂
  dsimp only
  generalize restore_context { switched k t with current_task := next_running k } c₂ = kc at hr
  obtain ⟨k₃, c₃⟩ := kc
  dsimp only at hr ⊢
  subst hr
  rw [← hcr3]
  rfl

/-- What a timer interrupt makes of the descriptors. -/
theorem irq0_isr_procs (r : ℕ) :
    (irq0_isr k t).1.procs r =
      { k.procs r with
        context := if r = k.current_task then saved_context k t else (k.procs r).context
        state :=
          if r = next_running k then .PSTATE_RUNNING
          else if r = k.current_task then .PSTATE_READY
          else (k.procs r).state } := by
  rw [irq0_isr_fst]
  show (switched k t).procs r = _
  by_cases hn : r = next_running k
  · subst hn
    by_cases hc : next_running k = k.current_task
    · simp [switched, saved, Kernel.modify, hc]
    · simp [switched, saved, Kernel.modify, hc]
  · by_cases hc : r = k.current_task
    · subst hc
      simp [switched, saved, Kernel.modify, hn]
    · simp [switched, saved, Kernel.modify, hn, hc]

/-- The address space in use is then that of the process that runs. -/
theorem irq0_isr_cr3 : (irq0_isr k t).1.mm.vm.cr3 = (irq0_isr k t).1.current.cr3 := by
  have hcur : (irq0_isr k t).1.current = (irq0_isr k t).1.procs (next_running k) := by
    unfold Kernel.current
    rw [irq0_isr_fst]
  rw [hcur, irq0_isr_procs, irq0_isr_fst]
  show ((saved k t).procs (next_running k)).context PCTX_CR3 = _
  unfold Process.cr3
  dsimp only
  by_cases hc : next_running k = k.current_task
  · simp [saved, Kernel.modify, hc]
  · simp [saved, Kernel.modify, hc]

end Timer

end Iridium
