import Iridium.Drivers.Keyboard

/-!
# System calls

`intr/syscall.c`, `asm/intr/syscall.asm` and `uapi/`: the registers of the caller are kept
in `syscall_regs`, the table is entered at `rax`, and the registers are loaded from
`syscall_regs` on the way back.

A string a call points to is given as its bytes, and the word of the stack that `sys_req`
leaves uninitialised is given as it is.
-/

namespace Iridium

open UAPI_STATUS_T

/-- An `ERRNO_T` or a `PID_T` in a register. -/
def ofInt16 (e : Int16) : UInt64 := e.toInt64.toUInt64

/-! ### The services -/

/-- `keyboard_uapi`: status, what is assigned to the output, and the new state. -/
def keyboard_uapi (k : Kernel) (req : UInt64) : UAPI_STATUS_T × Option UInt64 × Kernel :=
  if req = 0 then
    let (keystroke, k) := ps2_fetch_keystroke k
    (UAPI_OK, some keystroke.toUInt64, k)
  else (UAPI_INVALID_ARG, none, k)

/-- `procinfo_uapi`. -/
def procinfo_uapi (k : Kernel) (req : UInt64) : UAPI_STATUS_T × Option UInt64 × Kernel :=
  if req = 0 then (UAPI_OK, some (ofInt16 k.head.pid), k) else (UAPI_INVALID_ARG, none, k)

/-- `sysreq`, with the three services registered as `uapi_init` does. -/
def sysreq (k : Kernel) (service_num : UInt32) (request : UInt64) :
    Kern (UAPI_STATUS_T × Option UInt64 × Kernel) :=
  if service_num = 0 then .ok (keyboard_uapi k request)
  else if service_num = 1 then do
    let verified := verify_drvmaster k DRIVERTYPE_DISPLAY ≥ 0
    let (status, screen, fb) ← screen_uapi k.screen k.console.fb verified request
    return (status, none, { k with screen, console := { k.console with fb } })
  else if service_num = 2 then .ok (procinfo_uapi k request)
  else .ok (UAPI_INVALID_SERVICE, none, k)

/-! ### The table -/

/-- `struct SyscallRegs`. -/
structure SyscallRegs where
  rax : UInt64
  rbx : UInt64
  rcx : UInt64
  rdx : UInt64
  rsi : UInt64
  rdi : UInt64
  r8 : UInt64
  r9 : UInt64
  r10 : UInt64
  deriving DecidableEq

/-- A system call as its caller makes it. -/
structure Call where
  /-- The registers. -/
  regs : SyscallRegs
  /-- The string at `rbx`, for the calls that take one. -/
  string : List UInt8
  /-- What the stack held where `sys_req` keeps its output. -/
  uninit : UInt64

/-- A system call: the state and the registers after it. -/
abbrev Sys := Kernel → Call → Kern (Kernel × SyscallRegs)

def sys_hello : Sys := fun k c => .ok (k, c.regs)

def sys_req : Sys := fun k c => do
  let (status, output, k) ← sysreq k c.regs.rbx.toUInt32 c.regs.rcx
  return (k, { c.regs with rax := status.code, rbx := output.getD c.uninit })

def sys_claimdrv : Sys := fun k c =>
  let (e, k) := drv_claim k c.regs.rbx.toUInt32
  .ok (k, { c.regs with rax := ofInt16 e })

def sys_ird_spawn : Sys := fun k c => do
  if !k.current.holds PPERM_INITRD then return (k, { c.regs with rax := ofInt16 (-EPERM) })
  let (pid, k) ← _initrd_spawn k c.string c.regs.rcx.toUInt32 c.regs.rdx.toUInt8
  return (k, { c.regs with rax := ofInt16 pid })

def sys_send_psignal : Sys := fun k c => do
  let (e, k) ← psignal_send k c.regs.rbx.toUInt16.toInt16 c.regs.rcx.toUInt32
  return (k, { c.regs with rax := ofInt16 e })

def sys_read_psignal : Sys := fun k c =>
  let (signal, k) := psignal_read k
  .ok (k, { c.regs with rax := signal })

def sys_con_out : Sys := fun k c => do
  if !k.current.holds PPERM_CONSOLE then return (k, { c.regs with rax := ofInt16 (-EPERM) })
  let console ← write_string k.console c.regs.rcx.toUInt32 c.string
  return ({ k with console }, { c.regs with rax := ofInt16 EXIT_SUCCESS })

/-- `sys_exit` does not come back to its caller; the registers are those it was made with. -/
def sys_exit : Sys := fun k c => do
  let k ← exit k
  return (k, c.regs)

def sys_psignal_hook : Sys := fun k c => .ok (psignal_hook k c.regs.rbx, c.regs)

/-- `sys_reboot` resets the machine. -/
def sys_reboot : Sys := fun _ _ => .error .stopped

def syscall_table : List Sys :=
  [sys_hello, sys_req, sys_claimdrv, sys_ird_spawn, sys_send_psignal, sys_read_psignal,
    sys_con_out, sys_exit, sys_psignal_hook, sys_reboot]

/-- `g_SYSCALL_COUNT`. -/
def SYSCALL_COUNT : ℕ := 10

/-- `dispatch_syscall`: the bounds of `rax` are compared as signed numbers. -/
def dispatch_syscall : Sys := fun k c =>
  if c.regs.rax.toInt64 ≥ Int64.ofNat SYSCALL_COUNT then .ok (k, c.regs)
  else if c.regs.rax.toInt64 < 0 then .ok (k, c.regs)
  else match syscall_table[c.regs.rax.toNat]? with
    | some sys => sys k c
    | none => .ok (k, c.regs)

end Iridium
