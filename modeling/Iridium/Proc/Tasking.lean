import Iridium.Proc.Proc

/-!
# The timer interrupt and the task switch

`asm/intr/irq.asm` and `asm/proc/tasking.asm`, instruction by instruction. The processor
pushes an interrupt frame and enters `irq0_isr` with the frame at `[rsp]`: `rip` at
`[rsp]`, then `cs`, `rflags`, `rsp` at `[rsp + 24]` and `ss`. `switch_task` saves what it
saves of the registers in the context of the running process, moves on to the next one,
loads what it loads from its context, and `iretq` pops the frame.

A function called in between is compiled from C. It may leave anything in the registers
the calling convention lets it use, and in the stack below: `Clobber`.
-/

namespace Iridium

/-- The registers a task can see. -/
inductive Reg where
  | rax | rbx | rcx | rdx | rsi | rdi | rbp | rsp
  | r8 | r9 | r10 | r11 | r12 | r13 | r14 | r15
  | rip
  deriving DecidableEq, Repr

open Reg

/-- A register file. -/
abbrev Regs := Reg → UInt64

/-- What a called C function leaves in the registers it need not keep, and in the stack
slot `[rsp - 24]` below its caller. -/
structure Clobber where
  rax : UInt64
  rcx : UInt64
  rdx : UInt64
  rsi : UInt64
  rdi : UInt64
  r8 : UInt64
  r9 : UInt64
  r10 : UInt64
  r11 : UInt64
  below : UInt64

/-- One timer interrupt: the registers of the interrupted task, and what each called
function leaves behind, in the order of the calls. -/
structure Tick where
  regs : Regs
  lapic_send_eoi : Clobber
  proc_get_context : Clobber
  proc_set_state : Clobber
  proc_get_next : Clobber
  proc_set_state' : Clobber
  proc_get_context' : Clobber

/-- The machine while it is in `irq0_isr` and `switch_task`: the registers, the two slots
of the stack that are used, and the scratch variables. -/
structure Cpu where
  regs : Regs
  /-- `[rsp]`: the `rip` of the interrupt frame. -/
  frame_rip : UInt64
  /-- `[rsp + 24]`: the `rsp` of the interrupt frame. -/
  frame_rsp : UInt64
  /-- `[rsp - 24]`. -/
  below : UInt64
  tmpbuf : UInt64
  tmpbuf1 : UInt64
  saved_rsp : UInt64

namespace Cpu

/-- `mov r, v`. -/
def mov (c : Cpu) (r : Reg) (v : UInt64) : Cpu :=
  { c with regs := fun q => if q = r then v else c.regs q }

/-- A call of a function without a result. -/
def call (c : Cpu) (b : Clobber) : Cpu :=
  { c with
    below := b.below
    regs := fun
      | rax => b.rax | rcx => b.rcx | rdx => b.rdx | rsi => b.rsi | rdi => b.rdi
      | r8 => b.r8 | r9 => b.r9 | r10 => b.r10 | r11 => b.r11
      | q => c.regs q }

/-- A call of a function with a result. -/
def callRet (c : Cpu) (b : Clobber) (ret : UInt64) : Cpu := (c.call b).mov rax ret

end Cpu

/-- The offset of `context` in `struct Process`. -/
def CONTEXT_OFFSET : ℕ := 16

/-- `proc_get_context`. -/
def proc_get_context (root : ℕ) : UInt64 := UInt64.ofNat (root + CONTEXT_OFFSET)

/-- `proc_get_next`. -/
def proc_get_next (k : Kernel) (root : ℕ) : ℕ := (k.procs root).next

/-- `proc_set_state`. -/
def proc_set_state (k : Kernel) (root : ℕ) (state : PSTATE_T) : Kernel :=
  k.modify root fun q => { q with state }

/-- `set_context_index`: `[contextptr + 8*index] := value`, through `r11`. -/
def set_context_index (k : Kernel) (c : Cpu) (index : ℕ) (value : UInt64) : Kernel × Cpu :=
  (k.modify k.current_task fun q => { q with context := Function.update q.context index value },
    c.mov r11 (proc_get_context k.current_task + UInt64.ofNat (8 * index)))

/-- `index_context`: `rax := [contextptr + 8*index]`, through `r11`. -/
def index_context (k : Kernel) (c : Cpu) (index : ℕ) : Cpu :=
  (c.mov r11 (proc_get_context k.current_task + UInt64.ofNat (8 * index))).mov rax
    (k.current.context index)

/-- The first half of `switch_task`: the registers of the interrupted task into its
context. -/
def save_context (k : Kernel) (c : Cpu) (t : Tick) : Kernel × Cpu :=
  let c := { c with tmpbuf := c.regs rax }
  let c := c.mov rax c.frame_rip
  let c := { c with tmpbuf1 := c.regs rax }
  let c := c.mov rdi (UInt64.ofNat k.current_task)
  let c := c.callRet t.proc_get_context (proc_get_context k.current_task)
  let (k, c) := set_context_index k c 0 (c.regs rbp)
  let c := c.mov r10 c.below
  let (k, c) := set_context_index k c 1 (c.regs r10)
  let (k, c) := set_context_index k c 2 (c.regs rbx)
  let (k, c) := set_context_index k c 3 (c.regs rdx)
  let (k, c) := set_context_index k c 4 (c.regs rcx)
  let c := c.mov r10 c.tmpbuf
  let (k, c) := set_context_index k c 5 (c.regs r10)
  let c := c.mov r10 c.tmpbuf1
  let (k, c) := set_context_index k c 6 (c.regs r10)
  let c := c.mov r10 k.mm.vm.cr3
  set_context_index k c 7 (c.regs r10)

/-- The middle of `switch_task`: the next process becomes the running one. -/
def next_task (k : Kernel) (c : Cpu) (t : Tick) : Kernel × Cpu :=
  let c := ((c.mov rdi (UInt64.ofNat k.current_task)).mov rsi 2).call t.proc_set_state
  let k := proc_set_state k k.current_task .PSTATE_READY
  let next := proc_get_next k k.current_task
  let c := (c.mov rdi (UInt64.ofNat k.current_task)).callRet t.proc_get_next (UInt64.ofNat next)
  let k := { k with current_task := next }
  let c := ((c.mov rdi (UInt64.ofNat k.current_task)).mov rsi 1).call t.proc_set_state'
  let k := proc_set_state k k.current_task .PSTATE_RUNNING
  let c := c.mov rdi (UInt64.ofNat k.current_task)
  (k, c.callRet t.proc_get_context' (proc_get_context k.current_task))

/-- The second half of `switch_task`: the context of the running process into the
registers. -/
def restore_context (k : Kernel) (c : Cpu) : Kernel × Cpu :=
  let c := c.mov r10 (c.regs rax)
  let c := index_context k c 7
  let k := { k with mm := { k.mm with vm := { k.mm.vm with cr3 := c.regs rax } } }
  let c := index_context k c 0
  let c := c.mov rbp (c.regs rax)
  let c := index_context k c 1
  let c := { c with saved_rsp := c.regs rax }
  let c := index_context k c 2
  let c := c.mov rbx (c.regs rax)
  let c := index_context k c 3
  let c := c.mov rdx (c.regs rax)
  let c := index_context k c 4
  let c := c.mov rcx (c.regs rax)
  let c := index_context k c 6
  let c := { c with tmpbuf1 := c.regs rax }
  let c := index_context k c 5
  let c := c.mov r10 c.tmpbuf1
  let c := { c with frame_rip := c.regs r10 }
  let c := c.mov r10 c.saved_rsp
  (k, { c with below := c.regs r10 })

/-- `iretq`: `rip` and `rsp` from the frame. -/
def iretq (c : Cpu) : Regs := ((c.mov rip c.frame_rip).mov rsp c.frame_rsp).regs

/-- The processor enters `irq0_isr`, which acknowledges the interrupt; its counter of
ticks is read by nobody. -/
def irq0_entry (t : Tick) : Cpu :=
  let c : Cpu :=
    { regs := t.regs, frame_rip := t.regs rip, frame_rsp := t.regs rsp,
      below := 0, tmpbuf := 0, tmpbuf1 := 0, saved_rsp := 0 }
  c.call t.lapic_send_eoi

/-- **A timer interrupt**, from the interrupted task to the one that runs next: the
state, and the registers `iretq` leaves. A spinning processor leaves its loop. -/
def irq0_isr (k : Kernel) (t : Tick) : Kernel × Regs :=
  let (k, c) := save_context k (irq0_entry t) t
  let (k, c) := next_task k c t
  let (k, c) := restore_context k c
  ({ k with spinning := false }, iretq c)

end Iridium
