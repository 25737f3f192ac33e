import Iridium.Proc.Process

/-!
# The process module

`proc/proc.c`: how a process is made (`_spawn`), found (`locate_proc`) and taken out of
the run queue (`kill`), and the signals processes send each other.
-/

namespace Iridium

/-- `STACK_SIZE`. -/
def STACK_SIZE : UInt64 := 0x1000 * 3

/-- `psignal_queue_init`. -/
def psignal_queue_init (sigq : SignalQueue) : SignalQueue :=
  { sigq with rwlock := 0, next_index := 0, signal_callback := 0 }

/-- `locate_proc`: the first process of the queue with this PID. -/
def locate_proc (k : Kernel) (pid : PID_T) : Kern (Option ℕ) :=
  ofFuel (Lib.search (fun p => (k.procs p).next) k.queue_base (fun p => (k.procs p).pid == pid)
    k.fuel k.queue_base)

/-- The descriptor `_spawn` fills in for a new process, over what memory held there. -/
def new_process (old : Process) (pid : PID_T) (permissions : PPERM_T) (uses_console : UInt8)
    (prev next : ℕ) : Process :=
  { old with
    pid := pid
    perm_mask := permissions
    state := .PSTATE_READY
    n_slave_driver_groups := 0
    next := next
    prev := prev
    n_sleep_ticks := 0
    flags := 0
    parent := 0
    uses_console := uses_console &&& 1 != 0
    sigq := psignal_queue_init old.sigq }

/-- The IRET frame `_spawn` writes at the top of a new stack: `ss`, `rsp`, `rflags`, `cs`,
`rip`, upwards. -/
def iret_frame (s : Vm) (stack rsp rflags rip : UInt64) : Kern Vm := do
  let s ← write64 s stack (0x40 ||| 3)
  let s ← write64 s (stack + 8) rsp
  let s ← write64 s (stack + 16) (rflags ||| 0x200)
  let s ← write64 s (stack + 24) (0x38 ||| 3)
  write64 s (stack + 32) rip

/-- The part of `_spawn` that fills in the new descriptor at `p`, behind the head of the
queue, and moves the head. -/
def append (k : Kernel) (p : ℕ) (mm : Mm) (permissions : PPERM_T) (uses_console : UInt8) : Kernel :=
  let prev := k.queue_head
  let k := { k with mm }.modify prev fun q => { q with next := p }
  { k with queue_head := p, next_pid := k.next_pid + 1 }.modify p fun old =>
    new_process old k.next_pid permissions uses_console prev k.queue_base

/-- The context of a new process, over what memory held there. -/
def new_context (old : ℕ → UInt64) (cr3 stack_base rbp rip : UInt64) : ℕ → UInt64 := fun i =>
  if i = PCTX_CR3 then cr3
  else if i = PCTX_STACK_BASE then stack_base
  else if i = PCTX_RBP then rbp
  else if i = PCTX_RSP then rbp
  else if i = PCTX_RIP then rip
  else old i

/-- The last part of `_spawn`: the stack of the new process, with its IRET frame, and the
old address space in use again. -/
def setup_stack (m : Mm) (old : ℕ → UInt64) (cr3 old_cr3 rflags rip : UInt64) :
    Kern ((ℕ → UInt64) × Mm) := do
  let (stack_base, m) ← kmalloc_user m STACK_SIZE
  ASSERT (stack_base ≠ 0)
  let rbp := UInt64.ofNat stack_base + STACK_SIZE / 2
  let vm ← iret_frame m.vm rbp rbp rflags rip
  return (new_context old cr3 (UInt64.ofNat stack_base) rbp rip,
    { m with vm := { vm with cr3 := old_cr3 } })

/-- The part of `_spawn` that makes the address space and loads the program in it. With
`rip` zero the entry point comes from the file at `path`. -/
def setup_context (m : Mm) (old : ℕ → UInt64) (rflags rip : UInt64) (path : List UInt8) :
    Kern ((ℕ → UInt64) × Mm) := do
  let (cr3, vm) ← mkpml4 m.vm
  let m := { m with vm := { vm with cr3 := cr3 } }
  let (rip, m) ← if rip = 0 then elf_get_entry m path cr3 else pure (rip, m)
  setup_stack m old cr3 vm.cr3 rflags rip

/-- `_spawn`. -/
def _spawn (k : Kernel) (rip : UInt64) (path : List UInt8) (permissions : PPERM_T)
    (uses_console : UInt8) : Kern (ERRNO_T × Kernel) := do
  if permissions ≠ 0 ∧ !k.current.holds PPERM_PERM then return (-EPERM, k)
  let (p, mm) ← kmalloc k.mm PROCESS_SIZE
  ASSERT (p ≠ 0)
  let k := append k p mm permissions uses_console
  ASSERT (← locate_proc k k.head.pid).isSome
  let (context, mm) ← setup_context k.mm (k.procs p).context k.rflags rip path
  return (EXIT_SUCCESS, { k with mm }.modify p fun q => { q with context })

/-- What `psignal_exec_callback` makes of the process `q` just spawned for the callback of
the process `owner` at `addr`: a signal handler. -/
def make_handler (q owner : Process) (addr base : ℕ) : Process :=
  { q with
    perm_mask := owner.perm_mask
    context := Function.update q.context PCTX_CR3 owner.cr3
    parent := addr
    sigq := owner.sigq
    next := base
    flags := PFLAG_SIGNAL_HANDLER }

/-- `psignal_exec_callback`, for the process at `owner` and its own queue. -/
def psignal_exec_callback (k : Kernel) (owner : ℕ) : Kern Kernel := do
  let callback := (k.procs owner).sigq.signal_callback
  if callback = 0 then return k
  let (_, k) ← _spawn k callback [] 0 1
  let k := k.modify k.queue_head fun q => make_handler q (k.procs owner) owner k.queue_base
  ASSERT (← locate_proc k k.head.pid).isSome
  return k

/-- `_initrd_spawn`. -/
def _initrd_spawn (k : Kernel) (path : List UInt8) (permissions : PPERM_T) (uses_console : UInt8) :
    Kern (PID_T × Kernel) := do
  let (errno, k) ← _spawn k 0 path permissions uses_console
  if errno < 0 then return (errno, k)
  return (k.head.pid, k)

/-- The part of `kill` that joins the neighbours of the process at `p`. -/
def splice (k : Kernel) (p : ℕ) : Kernel :=
  let next := (k.procs p).next
  let k := k.modify (k.procs p).prev fun q => { q with next := next }
  let prev := (k.procs p).prev
  k.modify (k.procs p).next fun q => { q with prev := prev }

/-- The part of `kill` between the frees: the process at `p` leaves the queue, and the head
and the next PID move back when its PID is the head's. -/
def unlink (k : Kernel) (pid : PID_T) (p : ℕ) : Kernel :=
  let k := splice k p
  if pid = k.head.pid then
    let k := { k with queue_head := k.head.prev }
    if k.next_pid > k.head.pid then { k with next_pid := k.next_pid - 1 } else k
  else k

/-- `kill` of the process with this PID. When it does not kill it jumps back to ring 3
(`taskjmp_userland`) and the state is as it was. -/
def kill (k : Kernel) (pid : PID_T) : Kern Kernel := do
  if pid = 1 then return k
  if pid < 0 ∨ pid > k.head.pid then return k
  match ← locate_proc k pid with
  | none => return k
  | some p =>
    let next_pid := if k.current.pid = k.head.pid then k.next_pid - 1 else k.next_pid
    let k := { k with next_pid }
    -- its stack and its address space
    let heap ← kfree k.mm.heap ((k.procs p).context PCTX_STACK_BASE).toNat
    let pmm ← pmm_free k.mm.vm.pmm (k.procs p).cr3
    let k := { k with mm := { k.mm with heap, vm := { k.mm.vm with pmm } } }
    let k := unlink k pid p
    let heap ← kfree k.mm.heap p
    let k := { k with mm := { k.mm with heap } }
    ASSERT (← locate_proc k pid).isNone
    return { k with current_task := p, spinning := true }

/-- `exit`. -/
def exit (k : Kernel) : Kern Kernel := kill k k.current.pid

/-- `handle_exception`: a fault of the first process halts the machine. What it prints on
the way changes nothing here. -/
def handle_exception (k : Kernel) : Kern Kernel :=
  if k.current.pid = 1 then .error .stopped else exit k

/-- The PID `psignal_send` names as the source: the parent's for a signal handler. -/
def sender_pid (k : Kernel) : PID_T :=
  if k.current.isHandler then (k.procs k.current.parent).pid else k.current.pid

/-- A signal put into a queue. -/
def SignalQueue.push (q : SignalQueue) (w : UInt64) : SignalQueue :=
  { q with rwlock := 1, queue := Function.update q.queue q.next_index w, next_index := q.next_index + 1 }

/-- `psignal_send`. -/
def psignal_send (k : Kernel) (dest : PID_T) (dword : UInt32) : Kern (ERRNO_T × Kernel) := do
  match ← locate_proc k dest with
  | none => return (-EXIT_FAILURE, k)
  | some p =>
    let sigq := (k.procs p).sigq
    if sigq.next_index ≥ PSIGNAL_QUEUE_SIZE then return (-EREJECTED, k)
    if sigq.rwlock = 1 then return (-EBUSY, k)
    let w := psignal_word (sender_pid k) dword
    let k ← psignal_exec_callback (k.modify p fun q => { q with sigq := q.sigq.push w }) p
    return (EXIT_SUCCESS, k)

/-- The process whose queue `psignal_read` unlocks and pops: the parent for a signal handler. -/
def signal_owner (k : Kernel) : ℕ := if k.current.isHandler then k.current.parent else k.current_task

/-- A queue unlocked. -/
def SignalQueue.unlock (q : SignalQueue) : SignalQueue := { q with rwlock := 0 }

/-- A queue with its last signal taken out. -/
def SignalQueue.pop (q : SignalQueue) : SignalQueue := { q with next_index := q.next_index - 1 }

/-- `psignal_read`: the signal and the new state. Whether there is one is asked of the queue
of the running process. -/
def psignal_read (k : Kernel) : UInt64 × Kernel :=
  let owner := signal_owner k
  let k := k.modify owner fun q => { q with sigq := q.sigq.unlock }
  if k.current.sigq.next_index = 0 then (0, k)
  else
    let k := k.modify owner fun q => { q with sigq := q.sigq.pop }
    let sigq := (k.procs owner).sigq
    let signal := sigq.queue sigq.next_index
    (if PSIGNAL_TOP_BITS_UNTOUCHED signal then signal else 0, k)

/-- `sys_psignal_hook`: the callback of the running process. -/
def psignal_hook (k : Kernel) (callback : UInt64) : Kernel :=
  k.modify k.current_task fun q => { q with sigq := { q.sigq with signal_callback := callback } }

/-- The descriptor `proc_init` fills in for the first process, over what memory held there. -/
def first_process (old : Process) (pid : PID_T) (p : ℕ) : Process :=
  { old with
    pid := pid
    state := .PSTATE_READY
    prev := p
    next := p
    n_slave_driver_groups := 0
    perm_mask := PPERM_SUPER_ADMIN
    n_sleep_ticks := 0
    uses_console := true
    flags := 0
    parent := 0
    sigq := psignal_queue_init old.sigq }

/-- The context of the first process, over what memory held there. -/
def first_context (old : ℕ → UInt64) (cr3 rsp rip : UInt64) : ℕ → UInt64 := fun i =>
  if i = PCTX_RBX ∨ i = PCTX_RDX ∨ i = PCTX_RCX ∨ i = PCTX_RAX then 0
  else if i = PCTX_RIP then rip
  else if i = PCTX_CR3 then cr3
  else if i = PCTX_RSP ∨ i = PCTX_RBP then rsp
  else old i

/-- `proc_init`, up to the point where it turns the interrupts on: the first process. -/
def proc_init (k : Kernel) (ret_rip : UInt64) : Kern Kernel := do
  ASSERT (k.queue_head = 0)
  ASSERT (k.queue_base = 0)
  let (p, mm) ← kmalloc k.mm PROCESS_SIZE
  let k := { k with mm, queue_base := p, queue_head := p, current_task := p }
  ASSERT (p ≠ 0)
  let k := { k with next_pid := k.next_pid + 1 }.modify p fun old => first_process old k.next_pid p
  let (cr3, vm) ← mkpml4 k.mm.vm
  ASSERT (cr3 ≠ 0)
  ASSERT (k.current.holds PPERM_DRVCLAIM)
  let (stack, mm) ← kmalloc_user { k.mm with vm := { vm with cr3 := cr3 } } STACK_SIZE
  let rsp := UInt64.ofNat stack + (STACK_SIZE - 10)
  ASSERT (rsp ≠ 0)
  return { k with mm }.modify p fun q => { q with context := first_context q.context cr3 rsp ret_rip }

/-! ### Drivers -/

/-- `DRIVERTYPE_COUNT`. -/
def DRIVERTYPE_COUNT : UInt32 := 1

/-- `DRVMASTER_MAX_SLAVES`. -/
def DRVMASTER_MAX_SLAVES : UInt16 := 25

/-- `DRIVERTYPE_DISPLAY`. -/
def DRIVERTYPE_DISPLAY : UInt32 := 1

/-- The running process owns the driver type. -/
def owns (k : Kernel) (driver_type : UInt32) : Bool :=
  (List.range k.current.n_slave_driver_groups.toNat).any fun i =>
    k.current.slave_driver_groups (UInt16.ofNat i) == driver_type

/-- `drv_claim`. `driver_type - 1` is unsigned, so type `0` is above the bound too. -/
def drv_claim (k : Kernel) (driver_type : UInt32) : ERRNO_T × Kernel :=
  if driver_type - 1 ≥ DRIVERTYPE_COUNT then (-EXIT_FAILURE, k)
  else if k.drivertypes (driver_type - 1) ≠ 0 then (-EDRVCLAIMED, k)
  else if owns k driver_type then (-EXIT_FAILURE, k)
  else if k.current.n_slave_driver_groups = DRVMASTER_MAX_SLAVES - 1 then (-ENOBUFS, k)
  else if !k.current.holds PPERM_DRVCLAIM then (-EPERM, k)
  else
    (EXIT_SUCCESS,
      { k with drivertypes := Function.update k.drivertypes (driver_type - 1) 1 }.modify k.current_task
        fun q => { q with
          slave_driver_groups := Function.update q.slave_driver_groups q.n_slave_driver_groups driver_type
          n_slave_driver_groups := q.n_slave_driver_groups + 1 })

/-- `verify_drvmaster`. -/
def verify_drvmaster (k : Kernel) (driver_type : UInt32) : ERRNO_T :=
  if owns k driver_type then EXIT_SUCCESS else -EXIT_FAILURE

end Iridium
