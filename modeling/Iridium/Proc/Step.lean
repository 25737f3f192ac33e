import Iridium.Proc.Tasking
import Iridium.Intr.Syscall
import Iridium.Lib.Run

/-!
# The kernel as a transition system

The kernel runs from the end of `proc_init`. What happens next is an `Action`: the
running process has the kernel do something for it, faults or exits, or an interrupt is
taken. A processor that spins at the end of `kill` runs no process, so there it takes
interrupts only. Every action but the timer's leaves the processor with the process, or the
loop, it was in.

The heap is as `kheap_init` leaves it when `proc_init` begins: what `main` allocates besides
(`initrd_init`, `write_tss`, `init_font`) is left out. Programs have memory of their own, which
is not followed. Where a program or the loader stores to data of the kernel, nothing is said here:
they are assumed to stay off it, though `elf_get_entry` takes any address from a file, and
`kmalloc_user` makes pages of the heap writable in ring 3. Stores to the permissions of a process
are followed in `Stores`.

`Event` is the same from outside: a process makes system calls with any registers. The
table of system calls turns each into one action or none (`Event.action`).
-/

namespace Iridium

/-- Something the kernel does, from being entered until it returns. -/
inductive Action where
  /-- `_initrd_spawn`. -/
  | initrd_spawn (path : List UInt8) (permissions : PPERM_T) (uses_console : UInt8)
  /-- `psignal_send`, by the running process. -/
  | psignal_send (dest : PID_T) (dword : UInt32)
  /-- `psignal_read`. -/
  | psignal_read
  /-- `sys_psignal_hook`. -/
  | psignal_hook (callback : UInt64)
  /-- `drv_claim`. -/
  | drv_claim (driver_type : UInt32)
  /-- `sysreq`, with the word its output is initialised to by nobody. -/
  | sysreq (service_num : UInt32) (request uninit : UInt64)
  /-- `write_string`. -/
  | con_out (string : List UInt8) (color : UInt32)
  /-- `exit`. -/
  | exit
  /-- An exception of the running process. -/
  | fault
  /-- The timer interrupt. -/
  | timer (t : Tick)
  /-- The keyboard interrupt. -/
  | keyboard (port beyond : UInt8)

/-- The action ends the running process. -/
def Action.exits : Action → Bool
  | .exit | .fault => true
  | _ => false

/-- The action is an interrupt. -/
def Action.isInterrupt : Action → Bool
  | .timer _ | .keyboard _ _ => true
  | _ => false

/-- What the kernel does, and the word it answers with. -/
def act (k : Kernel) : Action → Kern (UInt64 × Kernel)
  | .initrd_spawn path permissions uses_console => do
    let (pid, k) ← _initrd_spawn k path permissions uses_console
    return (ofInt16 pid, k)
  | .psignal_send dest dword => do
    let (e, k) ← psignal_send k dest dword
    return (ofInt16 e, k)
  | .psignal_read => .ok (psignal_read k)
  | .psignal_hook callback => .ok (0, psignal_hook k callback)
  | .drv_claim driver_type =>
    let (e, k) := drv_claim k driver_type
    .ok (ofInt16 e, k)
  | .sysreq service_num request uninit => do
    let (_, output, k) ← sysreq k service_num request
    return (output.getD uninit, k)
  | .con_out string color => do
    let console ← write_string k.console color string
    return (0, { k with console })
  | .exit => do return (0, ← exit k)
  | .fault => do return (0, ← handle_exception k)
  | .timer t => .ok (0, (irq0_isr k t).1)
  | .keyboard port beyond => do return (0, ← irq1_isr k port beyond)

/-- The action can be taken: a processor that spins takes interrupts only. -/
def Enabled (k : Kernel) (a : Action) : Prop := k.spinning = true → a.isInterrupt = true

instance (k : Kernel) (a : Action) : Decidable (Enabled k a) :=
  inferInstanceAs (Decidable (_ → _))

/-- A process that does something runs. -/
theorem Enabled.runs {k : Kernel} {a : Action} (h : Enabled k a) (ha : a.isInterrupt = false) :
    k.spinning = false := by
  by_contra hs
  rw [h (by simpa using hs)] at ha
  cases ha

/-- A process that exits runs. -/
theorem Enabled.not_spinning {k : Kernel} {a : Action} (h : Enabled k a) (ha : a.exits = true) :
    k.spinning = false := by
  refine h.runs ?_
  cases a <;> simp [Action.exits] at ha <;> rfl

/-- A step of the kernel: an action and the answer. -/
def Step (k : Kernel) (e : Action × UInt64) (k' : Kernel) : Prop :=
  Enabled k e.1 ∧ act k e.1 = .ok (e.2, k')

/-! ### The beginning -/

/-- The static variables and the heap before the kernel has run: what the program file
says, with memory, tables and allocator as they happen to be. -/
structure PowerOn (k : Kernel) : Prop where
  queue_head : k.queue_head = 0
  queue_base : k.queue_base = 0
  next_pid : k.next_pid = 1
  spinning : k.spinning = false
  bytes_allocated : k.mm.heap.bytes_allocated = 0
  /-- No driver is claimed. -/
  drivertypes : k.drivertypes = fun _ => 0
  /-- No burst of words has begun. -/
  screen : k.screen = ⟨false, 0, 0, 0, 0, 0⟩

/-- `kheap_init`, then `proc_init`. -/
def start (k : Kernel) (ret_rip : UInt64) : Kern Kernel := do
  let mm ← kheap_init k.mm
  proc_init { k with mm } ret_rip

/-- The state at the end of `proc_init`. -/
def Started (k : Kernel) : Prop := ∃ k₀ ret_rip, PowerOn k₀ ∧ start k₀ ret_rip = .ok k

/-- **A run of the kernel** from the end of `proc_init`, all of whose steps meet `C`. -/
def RunsTo (C : Kernel → Action × UInt64 → Prop) (es : List (Action × UInt64)) (k : Kernel) : Prop :=
  ∃ k₀, Started k₀ ∧ Lib.Run Step C k₀ es k

/-- No condition. -/
def Always : Kernel → Action × UInt64 → Prop := fun _ _ => True

instance (k : Kernel) (e : Action × UInt64) : Decidable (Always k e) := .isTrue trivial

/-- A run that meets a condition meets a weaker one. -/
theorem RunsTo.mono {C C' : Kernel → Action × UInt64 → Prop} {es : List (Action × UInt64)} {k : Kernel}
    (h : RunsTo C es k) (hC : ∀ k e, C k e → C' k e) : RunsTo C' es k := by
  obtain ⟨k₀, hs, hr⟩ := h
  exact ⟨k₀, hs, hr.mono hC⟩

/-- A state the kernel can be in. -/
def Reachable (k : Kernel) : Prop := ∃ es, RunsTo Always es k

/-- An action, the state it is taken in and the word it answers with. -/
abbrev Entry := Kernel × Action × UInt64

/-- A step that leaves an entry. -/
def Logged (k : Kernel) (e : Entry) (k' : Kernel) : Prop := e.1 = k ∧ Step k e.2 k'

/-- A run leaves entries. -/
theorem logged {C : Kernel → Action × UInt64 → Prop} {k₀ k : Kernel} {es : List (Action × UInt64)}
    (h : Lib.Run Step C k₀ es k) : ∃ fs, Lib.Run Logged (fun k e => C k e.2) k₀ fs k ∧
      fs.map Prod.snd = es := h.logs

/-! ### From outside -/

/-- What happens to the kernel. -/
inductive Event where
  /-- The running process makes a system call. -/
  | syscall (c : Call)
  /-- It faults. -/
  | fault
  /-- The timer interrupt. -/
  | timer (t : Tick)
  /-- The keyboard interrupt. -/
  | keyboard (port beyond : UInt8)

/-- The action an event comes to, if any. -/
def Event.action (k : Kernel) : Event → Option Action
  | .fault => some .fault
  | .timer t => some (.timer t)
  | .keyboard port beyond => some (.keyboard port beyond)
  | .syscall c =>
    match c.regs.rax.toNat with
    | 1 => some (.sysreq c.regs.rbx.toUInt32 c.regs.rcx c.uninit)
    | 2 => some (.drv_claim c.regs.rbx.toUInt32)
    | 3 =>
      if k.current.holds PPERM_INITRD then
        some (.initrd_spawn c.string c.regs.rcx.toUInt32 c.regs.rdx.toUInt8)
      else none
    | 4 => some (.psignal_send c.regs.rbx.toUInt16.toInt16 c.regs.rcx.toUInt32)
    | 5 => some .psignal_read
    | 6 =>
      if k.current.holds PPERM_CONSOLE then some (.con_out c.string c.regs.rcx.toUInt32) else none
    | 7 => some .exit
    | 8 => some (.psignal_hook c.regs.rbx)
    | _ => none

/-- The kernel's answer to an event: the state after it. -/
def handle (k : Kernel) : Event → Kern Kernel
  | .syscall c => do return (← dispatch_syscall k c).1
  | .fault => handle_exception k
  | .timer t => .ok (irq0_isr k t).1
  | .keyboard port beyond => irq1_isr k port beyond

/-- The event can happen: a processor that spins takes interrupts only. -/
def Event.Possible (k : Kernel) : Event → Prop
  | .timer _ | .keyboard _ _ => True
  | _ => k.spinning = false

/-- A step seen from outside. -/
def Happens (k : Kernel) (e : Event) (k' : Kernel) : Prop := e.Possible k ∧ handle k e = .ok k'

section Happens

variable {k k' : Kernel}

/-- `rax` outside the table calls nothing. -/
theorem dispatch_syscall_of_le {c : Call} (h : SYSCALL_COUNT ≤ c.regs.rax.toNat) :
    dispatch_syscall k c = .ok (k, c.regs) := by
  unfold dispatch_syscall
  split
  · rfl
  split
  · rfl
  next hge hlt =>
    have hnone : syscall_table[c.regs.rax.toNat]? = none := List.getElem?_eq_none h
    rw [hnone]

/-- `rax` inside the table calls its entry. -/
theorem dispatch_syscall_of_lt {c : Call} (h : c.regs.rax.toNat < syscall_table.length) :
    dispatch_syscall k c = syscall_table[c.regs.rax.toNat] k c := by
  have hle : c.regs.rax.toNat < 10 := h
  have hi : c.regs.rax.toInt64.toInt = c.regs.rax.toNat :=
    BitVec.toInt_eq_toNat_of_lt (show 2 * c.regs.rax.toNat < _ by omega)
  unfold dispatch_syscall
  rw [if_neg, if_neg, List.getElem?_eq_getElem h]
  · rw [Int64.lt_iff_toInt_lt, hi, Int64.toInt_zero]
    omega
  · rw [ge_iff_le, Int64.le_iff_toInt_le, hi, Int64.toInt_ofNat_of_lt (by decide)]
    have : (SYSCALL_COUNT : ℤ) = 10 := rfl
    omega

/-- A system call that returns has changed nothing, or was one action. -/
theorem dispatch_syscall_ok {c : Call} {r : Kernel × SyscallRegs} (h : dispatch_syscall k c = .ok r) :
    ((Event.syscall c).action k = none ∧ r.1 = k) ∨
      ∃ a o, (Event.syscall c).action k = some a ∧ act k a = .ok (o, r.1) := by
  by_cases hlt : c.regs.rax.toNat < 10
  · rw [dispatch_syscall_of_lt hlt] at h
    unfold Event.action
    dsimp only
    generalize c.regs.rax.toNat = n at *
    match n, hlt with
    | 0, _ =>
      obtain rfl := Except.ok.inj h
      exact .inl ⟨rfl, rfl⟩
    | 1, _ =>
      obtain ⟨q, hq, h⟩ := bind_ok.1 h
      obtain rfl := pure_ok.1 h
      exact .inr ⟨_, _, rfl, bind_ok.2 ⟨q, hq, rfl⟩⟩
    | 2, _ =>
      obtain rfl := Except.ok.inj h
      exact .inr ⟨_, _, rfl, rfl⟩
    | 3, _ =>
      replace h : sys_ird_spawn k c = .ok r := h
      unfold sys_ird_spawn at h
      cases hp : k.current.holds PPERM_INITRD with
      | false =>
        rw [hp] at h
        obtain rfl := pure_ok.1 h
        exact .inl ⟨rfl, rfl⟩
      | true =>
        rw [hp] at h
        obtain ⟨q, hq, h⟩ := bind_ok.1 h
        obtain rfl := pure_ok.1 h
        exact .inr ⟨_, _, rfl, bind_ok.2 ⟨q, hq, rfl⟩⟩
    | 4, _ =>
      obtain ⟨q, hq, h⟩ := bind_ok.1 h
      obtain rfl := pure_ok.1 h
      exact .inr ⟨_, _, rfl, bind_ok.2 ⟨q, hq, rfl⟩⟩
    | 5, _ =>
      obtain rfl := Except.ok.inj h
      exact .inr ⟨_, _, rfl, rfl⟩
    | 6, _ =>
      replace h : sys_con_out k c = .ok r := h
      unfold sys_con_out at h
      cases hp : k.current.holds PPERM_CONSOLE with
      | false =>
        rw [hp] at h
        obtain rfl := pure_ok.1 h
        exact .inl ⟨rfl, rfl⟩
      | true =>
        rw [hp] at h
        obtain ⟨q, hq, h⟩ := bind_ok.1 h
        obtain rfl := pure_ok.1 h
        exact .inr ⟨_, _, rfl, bind_ok.2 ⟨q, hq, rfl⟩⟩
    | 7, _ =>
      obtain ⟨q, hq, h⟩ := bind_ok.1 h
      obtain rfl := pure_ok.1 h
      exact .inr ⟨_, _, rfl, bind_ok.2 ⟨q, hq, rfl⟩⟩
    | 8, _ =>
      obtain rfl := Except.ok.inj h
      exact .inr ⟨_, _, rfl, rfl⟩
    | 9, _ => cases h
  · rw [dispatch_syscall_of_le (Nat.le_of_not_lt hlt)] at h
    obtain rfl := Except.ok.inj h
    refine .inl ⟨?_, rfl⟩
    unfold Event.action
    dsimp only
    split <;> first | omega | rfl

/-- **An event is an action**, or changes nothing. -/
theorem Happens.step {e : Event} (h : Happens k e k') :
    (e.action k = none ∧ k' = k) ∨ ∃ a o, e.action k = some a ∧ Step k (a, o) k' := by
  obtain ⟨hp, h⟩ := h
  cases e with
  | syscall c =>
    obtain ⟨r, hr, h⟩ := bind_ok.1 h
    obtain rfl := pure_ok.1 h
    rcases dispatch_syscall_ok hr with hnone | ⟨a, o, ha, hact⟩
    · exact .inl hnone
    · exact .inr ⟨a, o, ha, fun hs => absurd (hp.symm.trans hs) (by decide), hact⟩
  | fault =>
    refine .inr ⟨.fault, 0, rfl, fun hs => absurd (hp.symm.trans hs) (by decide), ?_⟩
    exact bind_ok.2 ⟨k', h, rfl⟩
  | timer t =>
    obtain rfl := Except.ok.inj h
    exact .inr ⟨.timer t, 0, rfl, fun _ => rfl, rfl⟩
  | keyboard port beyond =>
    exact .inr ⟨.keyboard port beyond, 0, rfl, fun _ => rfl, bind_ok.2 ⟨k', h, rfl⟩⟩

end Happens

/-! ### Runs that are computed -/

section Compute

variable (C : Kernel → Action × UInt64 → Prop) [∀ k e, Decidable (C k e)]

/-- The actions `as` taken from `k`, as long as they can be taken and meet `C`. -/
def runs (k : Kernel) : List Action → Kern Kernel
  | [] => .ok k
  | a :: as => do
    let (o, k') ← act k a
    if Enabled k a ∧ C k (a, o) then runs k' as else .error .stopped

variable {C}

theorem runs_ok {k k' : Kernel} {as : List Action} (h : runs C k as = .ok k') :
    ∃ es, Lib.Run Step C k es k' := by
  induction as generalizing k with
  | nil =>
    obtain rfl := Except.ok.inj h
    exact ⟨[], .nil⟩
  | cons a as ih =>
    obtain ⟨⟨o, k₁⟩, h₁, h⟩ := bind_ok.1 h
    dsimp only at h
    split at h
    next hc =>
      obtain ⟨es, hr⟩ := ih h
      exact ⟨_, (Lib.Run.single hc.2 ⟨hc.1, h₁⟩).trans hr⟩
    next => cases h

/-- A machine: page tables that map the first two megabytes and the kernel heap, writable in
ring 0 only, and some free frames. -/
def machine : Kernel where
  mm :=
    { vm :=
        { ram := fun f i =>
            if f = 0x100 then if i = 0 ∨ i = 256 then 0x101007 else 0
            else if f = 0x101 then if i = 0 then 0x102007 else 0
            else if f = 0x102 then if i = 0 then 0x103007 else 0
            else if f = 0x103 then (UInt64.ofNat i <<< 12) ||| 3
            else 0
          pmm :=
            { bitmap := fun i => if 8 ≤ i ∧ i < 64 then BITMAP_FREE else 0, bitmap_length := 0x200,
              bitmap_i := 2, lock := false }
          lock := false
          cr3 := 0x100000 }
      heap := { block := fun _ => ⟨false, 0, 0, 0, 0⟩, heap_head := 0, heap_tail := 0, bytes_allocated := 0 }
      bytes := fun _ => 0
      module := fun _ => 0
      initrd := 0x100000 }
  procs := fun _ =>
    { pid := 0, state := .PSTATE_BLOCKED, n_sleep_ticks := 0, perm_mask := 0, context := fun _ => 0,
      n_slave_driver_groups := 0, slave_driver_groups := fun _ => 0, uses_console := false, flags := 0,
      sigq := ⟨0, fun _ => 0, 0, 0⟩, parent := 0, prev := 0, next := 0 }
  queue_head := 0
  queue_base := 0
  current_task := 0
  next_pid := 1
  spinning := false
  rflags := 2
  drivertypes := fun _ => 0
  last_keystroke := 0
  screen := ⟨false, 0, 0, 0, 0, 0⟩
  console := ⟨⟨640, 480, 2560, fun _ => 0⟩, 16, fun _ => 0, 0, 0⟩

/-- Where the first process has its descriptor. -/
def first_descriptor : ℕ := DATA_START (DATA_START HEAP_START_ADDR)

/-- Where the first process that is spawned has its own: behind the descriptor and the stack of the first. -/
def second_descriptor : ℕ :=
  DATA_START (DATA_START (first_descriptor + PROCESS_SIZE.toNat) + STACK_SIZE.toNat)

theorem machine_powerOn : PowerOn machine := ⟨rfl, rfl, rfl, rfl, rfl, rfl, rfl⟩

/-- The actions taken from the beginning of the machine, and a test of the state reached. -/
def traces (C : Kernel → Action × UInt64 → Prop) [∀ k e, Decidable (C k e)] (as : List Action)
    (b : Kernel → Bool) : Bool :=
  match start machine 0x1234 >>= fun k => runs C k as with
  | .ok k => b k
  | .error _ => false

theorem traces_true (C : Kernel → Action × UInt64 → Prop) [∀ k e, Decidable (C k e)] (b : Kernel → Bool)
    (as : List Action) (h : traces C as b = true) : ∃ es k, RunsTo C es k ∧ b k = true := by
  unfold traces at h
  split at h
  next k hk =>
    obtain ⟨k₀, h₀, hr⟩ := bind_ok.1 hk
    obtain ⟨es, hr⟩ := runs_ok hr
    exact ⟨es, k, ⟨k₀, ⟨machine, _, machine_powerOn, h₀⟩, hr⟩, h⟩
  next => cases h

end Compute

/-- A timer interrupt that finds all registers zero. -/
def quietTick : Tick :=
  let b : Clobber := ⟨0, 0, 0, 0, 0, 0, 0, 0, 0, 0⟩
  ⟨fun _ => 0, b, b, b, b, b, b⟩

end Iridium
