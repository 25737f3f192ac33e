import Iridium.Common.Elf
import Iridium.Uapi.Screen
import Iridium.Lib.Ring

/-!
# Processes and the state of the kernel

`proc/proc.h`, `proc/psignal.h`, `proc/perm.h` and the static variables of `proc/proc.c`,
`proc/drvmaster.c`, `drivers/ps2/ps2keyboard.c` and `uapi/video/screen.c`.

A descriptor (`struct Process`) lies at an address of the kernel heap; `procs` is the
store of them, and stays readable after `kfree`. The kernel runs on one processor. It is
entered by a system call, an exception or an interrupt and runs with the interrupts off
until it returns, but for the end of `kill`, which turns them on and spins: `spinning`.
-/

namespace Iridium

/-- `PID_T`. -/
abbrev PID_T := Int16

/-- `PPERM_T`. -/
abbrev PPERM_T := UInt32

def PPERM_PERM : PPERM_T := 1
def PPERM_DRVCLAIM : PPERM_T := 2
def PPERM_CONSOLE : PPERM_T := 4
def PPERM_INITRD : PPERM_T := 8
def PPERM_SUPER_ADMIN : PPERM_T := PPERM_CONSOLE ||| PPERM_DRVCLAIM ||| PPERM_PERM ||| PPERM_INITRD

def PSIGNAL_QUEUE_SIZE : UInt8 := 3

/-- `struct SignalQueue`. The cells of `queue` from `PSIGNAL_QUEUE_SIZE` on are the memory
behind the array; what the kernel keeps there is not followed. -/
structure SignalQueue where
  rwlock : UInt8
  queue : UInt8 → UInt64
  signal_callback : UInt64
  next_index : UInt8

/-- `PSTATE_T`. -/
inductive PSTATE_T where
  | PSTATE_BLOCKED
  | PSTATE_RUNNING
  | PSTATE_READY
  deriving DecidableEq, Repr

def PFLAG_SIGNAL_HANDLER : UInt16 := 1

/-! The indices of `context`. -/

def PCTX_RBP : ℕ := 0
def PCTX_RSP : ℕ := 1
def PCTX_RBX : ℕ := 2
def PCTX_RDX : ℕ := 3
def PCTX_RCX : ℕ := 4
def PCTX_RAX : ℕ := 5
def PCTX_RIP : ℕ := 6
def PCTX_CR3 : ℕ := 7
def PCTX_STACK_BASE : ℕ := 8

/-- `struct Process`. -/
structure Process where
  pid : PID_T
  state : PSTATE_T
  n_sleep_ticks : UInt32
  perm_mask : PPERM_T
  context : ℕ → UInt64
  n_slave_driver_groups : UInt16
  slave_driver_groups : UInt16 → UInt32
  uses_console : Bool
  flags : UInt16
  sigq : SignalQueue
  parent : ℕ
  prev : ℕ
  next : ℕ

/-- `sizeof(struct Process)`. -/
def PROCESS_SIZE : UInt64 := 272

/-- The process is a signal handler. -/
def Process.isHandler (p : Process) : Bool := p.flags &&& PFLAG_SIGNAL_HANDLER != 0

/-- The process holds a permission. -/
def Process.holds (p : Process) (perm : PPERM_T) : Bool := p.perm_mask &&& perm != 0

/-- The address space of a process, as its descriptor keeps it. -/
def Process.cr3 (p : Process) : UInt64 := p.context PCTX_CR3

/-- The state of the kernel. -/
structure Kernel where
  /-- Memory management. -/
  mm : Mm
  /-- The descriptor at each address. -/
  procs : ℕ → Process
  queue_head : ℕ
  queue_base : ℕ
  current_task : ℕ
  next_pid : PID_T
  /-- The processor is in the endless loop at the end of `kill`. -/
  spinning : Bool
  /-- What `pushf` stores. -/
  rflags : UInt64
  /-- `drivertypes` of `proc/drvmaster.c`. -/
  drivertypes : UInt32 → UInt8
  /-- `last_keystroke` of the keyboard driver. -/
  last_keystroke : UInt32
  /-- The static variables of the screen service. -/
  screen : ScreenUapi
  /-- The framebuffer and the console on it. -/
  console : Console

namespace Kernel

/-- The descriptor of the running process. -/
def current (k : Kernel) : Process := k.procs k.current_task

/-- The descriptor of the head of the queue. -/
def head (k : Kernel) : Process := k.procs k.queue_head

/-- A descriptor changed. -/
def modify (k : Kernel) (p : ℕ) (f : Process → Process) : Kernel :=
  { k with procs := Function.update k.procs p (f (k.procs p)) }

/-- A walk of the run queue that takes more turns than there are addresses for
descriptors goes in circles. -/
def fuel (k : Kernel) : ℕ := k.mm.heap.heap_head + KHEAP_BLOCK_SIZE + 1

/-- **The run queue**: the descriptors met by following `next` from `queue_base`. -/
def queue (k : Kernel) : List ℕ :=
  Lib.walk (fun p => (k.procs p).next) k.queue_base k.fuel k.queue_base

/-- The process is linked in the run queue. -/
def Live (k : Kernel) (p : ℕ) : Prop := p ∈ k.queue

instance (k : Kernel) (p : ℕ) : Decidable (k.Live p) := inferInstanceAs (Decidable (p ∈ k.queue))

end Kernel

/-! ### Signals -/

/-- `PSIGNAL_EXTRACT_SOURCE`. -/
def PSIGNAL_EXTRACT_SOURCE (psignal : UInt64) : UInt64 := (psignal >>> 32) &&& 0xFFFF

/-- `PSIGNAL_EXTRACT_SIGPAYLOAD`. -/
def PSIGNAL_EXTRACT_SIGPAYLOAD (psignal : UInt64) : UInt64 := psignal &&& 0xFFFFFFFF

/-- `PSIGNAL_TOP_BITS_UNTOUCHED`. -/
def PSIGNAL_TOP_BITS_UNTOUCHED (psignal : UInt64) : Bool := psignal >>> 48 == 0

/-- The word `psignal_send` queues: `((uint64_t)sender_pid << 32) | dword`. -/
def psignal_word (sender_pid : PID_T) (dword : UInt32) : UInt64 :=
  (sender_pid.toInt64.toUInt64 <<< 32) ||| dword.toUInt64

end Iridium
