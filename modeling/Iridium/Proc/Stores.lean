import Iridium.Proc.Effect
import Iridium.Common.ElfReads

/-!
# Stores to descriptors

`Step` takes the data of the kernel to be its own. They are not: `elf_get_entry` stores the bytes of a
segment wherever the file says, in ring 0, and `kmalloc_user` makes pages of the heap, where the descriptors
lie, writable in ring 3. Here the kernel runs with these stores, as far as they get to a `perm_mask`: while
there are any, the masks of the processes in the queue lie among the bytes of memory (`masks_out`), and
afterwards they are what these bytes say (`masks_in`).

Of the descriptors only `perm_mask` is followed; a store to anything else of the kernel changes nothing here.
-/

namespace Iridium

open Lib Lib.Paging

/-! ### Permissions in memory -/

/-- `offsetof(struct Process, perm_mask)`. -/
def PERM_MASK_OFFSET : ℕ := 12

namespace Kernel

/-- The byte of a `perm_mask` at `a`, when a process in the queue has its descriptor there. -/
def mask_byte (k : Kernel) (a : ℕ) : Option UInt8 :=
  (k.queue.find? fun p => p + PERM_MASK_OFFSET ≤ a ∧ a < p + PERM_MASK_OFFSET + 4).map fun p =>
    getByte (k.procs p).perm_mask.toUInt64 (a - (p + PERM_MASK_OFFSET))

/-- Memory, with the masks of the processes in the queue among its bytes. -/
def masks_out (k : Kernel) : Mm := { k.mm with bytes := fun a => (k.mask_byte a).getD (k.mm.bytes a) }

/-- The state with memory `mm`, and with the masks that it has for the processes in `l`. -/
def masks_in (k : Kernel) (l : List ℕ) (mm : Mm) : Kernel :=
  { k with
    mm
    procs := fun p =>
      if p ∈ l then { k.procs p with perm_mask := read32 mm.bytes (p + PERM_MASK_OFFSET) } else k.procs p }

/-- Where the descriptors of the processes in the queue lie. -/
def descriptors (k : Kernel) : List ℕ := k.queue.flatMap fun p => List.range' p PROCESS_SIZE.toNat

end Kernel

/-! ### The kernel with these stores -/

/-- `_spawn` from a file, with the stores of the loader. -/
def _spawn_stored (k : Kernel) (path : List UInt8) (permissions : PPERM_T) (uses_console : UInt8) :
    Kern (ERRNO_T × Kernel) := do
  if permissions ≠ 0 ∧ !k.current.holds PPERM_PERM then return (-EPERM, k)
  let (p, mm) ← kmalloc k.mm PROCESS_SIZE
  ASSERT (p ≠ 0)
  let k := append k p mm permissions uses_console
  ASSERT (← locate_proc k k.head.pid).isSome
  let (context, mm) ← setup_context k.masks_out (k.procs p).context k.rflags 0 path
  return (EXIT_SUCCESS, (k.masks_in k.queue mm).modify p fun q => { q with context })

/-- `_initrd_spawn`, with the stores of the loader. -/
def _initrd_spawn_stored (k : Kernel) (path : List UInt8) (permissions : PPERM_T) (uses_console : UInt8) :
    Kern (PID_T × Kernel) := do
  let (errno, k) ← _spawn_stored k path permissions uses_console
  if errno < 0 then return (errno, k)
  return (k.head.pid, k)

/-- What the kernel does: nothing else calls the loader. -/
def act_stored (k : Kernel) : Action → Kern (UInt64 × Kernel)
  | .initrd_spawn path permissions uses_console => do
    let (pid, k) ← _initrd_spawn_stored k path permissions uses_console
    return (ofInt16 pid, k)
  | a => act k a

/-- A byte stored by the running process. Where its space does not let it, it faults, which is an event. -/
def store_user (k : Kernel) (a : UInt64) (b : UInt8) : Kern Kernel :=
  match translate k.mm.vm.ram k.mm.vm.cr3 a with
  | none => .error .fault
  | some h =>
    if h.user ∧ h.writable then do
      let mm ← k.masks_out.store8 a b
      return k.masks_in k.queue mm
    else .error .fault

/-- An event, or a store of the running process. -/
inductive Move where
  | event (e : Event)
  | store (a : UInt64) (b : UInt8)

/-- The state after it. -/
def move (k : Kernel) : Move → Kern Kernel
  | .event e =>
    match e.action k with
    | none => .ok k
    | some a => do return (← act_stored k a).2
  | .store a b => store_user k a b

def Move.Possible (k : Kernel) : Move → Prop
  | .event e => e.Possible k
  | .store _ _ => k.spinning = false

/-- A step, seen from outside, with all stores. -/
def Moves (k : Kernel) (m : Move) (k' : Kernel) : Prop := m.Possible k ∧ move k m = .ok k'

/-! ### Stores that spare the descriptors -/

/-- A byte stored at `a` is none of those in `l`. -/
def Avoids (l : List ℕ) (s : Vm) (a : UInt64) : Prop :=
  ∀ q ∈ l, ¬(q < 2 ^ 64 ∧ same_byte s a (UInt64.ofNat q) = true)

/-- The loader does not store to the bytes in `l`. -/
def Keeps (l : List ℕ) : ElfDeed → Prop
  | .stored s a => Avoids l s a
  | _ => True

/-- What the loader does for a spawn, and the state that it does it in. -/
def loading (k : Kernel) (path : List UInt8) (permissions : PPERM_T) (uses_console : UInt8) :
    Kern (Kernel × Loader (UInt64 × Mm)) := do
  let (p, mm) ← kmalloc k.mm PROCESS_SIZE
  let k := append k p mm permissions uses_console
  let (cr3, vm) ← mkpml4 k.mm.vm
  return (k, elf_get_entry_told { k.masks_out with vm := { vm with cr3 } } path cr3)

/-- The loader stores to no descriptor of a process in the queue. -/
def Action.Spares (k : Kernel) : Action → Prop
  | .initrd_spawn path permissions uses_console => denied k permissions = false →
    ∀ r, loading k path permissions uses_console = .ok r → r.2.All (Keeps r.1.descriptors)
  | _ => True

/-- **No descriptor of a process in the queue is stored to**, by the loader or by a program. -/
def Move.Spares (k : Kernel) : Move → Prop
  | .event e => ∀ a ∈ e.action k, a.Spares k
  | .store a _ => Avoids k.descriptors k.mm.vm a

section Decidable

/-- Only bytes at the same place of a page can be the same. -/
theorem same_byte_offset {s : Vm} {a : UInt64} {q : ℕ} (h : same_byte s a (UInt64.ofNat q) = true) :
    q % 4096 = a.toNat % 4096 := by
  unfold same_byte at h
  split at h
  next =>
    rw [Bool.and_eq_true, beq_iff_eq (a := a.toNat % 4096), UInt64.toNat_ofNat'] at h
    omega
  next => cases h

instance (l : List ℕ) (s : Vm) (a : UInt64) : Decidable (Avoids l s a) :=
  decidable_of_iff (∀ q ∈ l, q % 4096 = a.toNat % 4096 → ¬(q < 2 ^ 64 ∧ same_byte s a (UInt64.ofNat q) = true))
    ⟨fun h q hq hs => h q hq (same_byte_offset hs.2) hs, fun h q hq _ => h q hq⟩

instance (l : List ℕ) : DecidablePred (Keeps l)
  | .stored s a => inferInstanceAs (Decidable (Avoids l s a))
  | .file _ | .phdr _ | .alloc | .mapped _ _ _ => .isTrue trivial

instance {ω ε α : Type} (P : ω → Prop) [DecidablePred P] (x : Traced ω ε α) : Decidable (x.All P) :=
  inferInstanceAs (Decidable (∀ d ∈ x.deeds, P d))

/-- What is asked of an answer is asked of none when there is none. -/
instance {α : Type} (x : Kern α) (P : α → Prop) [DecidablePred P] : Decidable (∀ r, x = .ok r → P r) :=
  match x with
  | .error _ => .isTrue fun _ h => by cases h
  | .ok r => decidable_of_iff (P r) ⟨fun h _ hr => Except.ok.inj hr ▸ h, fun h => h r rfl⟩

instance (k : Kernel) : DecidablePred (Action.Spares k)
  | .initrd_spawn path permissions uses_console => inferInstanceAs (Decidable (denied k permissions = false →
      ∀ r, loading k path permissions uses_console = .ok r → r.2.All (Keeps r.1.descriptors)))
  | .psignal_send _ _ | .psignal_read | .psignal_hook _ | .drv_claim _ | .sysreq _ _ _ | .con_out _ _ | .exit
  | .fault | .timer _ | .keyboard _ _ => .isTrue trivial

instance (k : Kernel) : DecidablePred (Move.Spares k)
  | .event e => inferInstanceAs (Decidable (∀ a ∈ e.action k, a.Spares k))
  | .store a _ => inferInstanceAs (Decidable (Avoids k.descriptors k.mm.vm a))

end Decidable

/-! ### Runs that are computed -/

section Compute

instance (k : Kernel) : DecidablePred (Move.Possible k)
  | .event (.timer _) | .event (.keyboard _ _) => .isTrue trivial
  | .event (.syscall _) | .event .fault | .store _ _ => inferInstanceAs (Decidable (k.spinning = false))

variable (C : Kernel → Move → Prop) [∀ k m, Decidable (C k m)]

/-- The moves `ms` from `k` on, as long as they are possible and meet `C`. -/
def moves (k : Kernel) : List Move → Kern Kernel
  | [] => .ok k
  | m :: ms => do
    let k' ← move k m
    if m.Possible k ∧ C k m then moves k' ms else .error .stopped

variable {C}

theorem moves_ok {k k' : Kernel} {ms : List Move} (h : moves C k ms = .ok k') : Lib.Run Moves C k ms k' := by
  induction ms generalizing k with
  | nil =>
    obtain rfl := Except.ok.inj h
    exact .nil
  | cons m ms ih =>
    obtain ⟨k₁, h₁, h⟩ := bind_ok.1 h
    split at h
    next hc => exact (Lib.Run.single hc.2 ⟨hc.1, h₁⟩).trans (ih h)
    next => cases h

/-- An entry of an archive: a name of one letter, the size `121`, and data. -/
def tar_entry (name : UInt8) (data : List UInt8) (i : ℕ) : UInt8 :=
  if i = 0 then name
  else if i = 132 ∨ i = 134 then 49
  else if i = 133 then 55
  else if 124 ≤ i ∧ i < 135 then 48
  else if 512 ≤ i then data.getD (i - 512) 0
  else 0

/-- The machine, with its heap on frames of its own, and two files with a segment of one byte: `a` has it at
`0x1000`, and `b` at `address`, where it puts `b`. -/
def storing_machine (address : UInt64) (b : UInt8) : Kernel :=
  { machine with
    mm :=
      { machine.mm with
        vm :=
          { machine.mm.vm with
            ram := fun f i =>
              if f = 0x100 ∧ i = 256 then 0x111007
              else if f = 0x111 then if i = 0 then 0x112007 else 0
              else if f = 0x112 then if i = 0 then 0x113007 else 0
              else if f = 0x113 then (UInt64.ofNat (0x200 + i) <<< 12) ||| 3
              else machine.mm.vm.ram f i }
        initrd := 0x100000
        module := fun a =>
          if 0x100600 ≤ a then tar_entry 98 ((smallElf address 1).set 120 b) (a - 0x100600).toNat
          else if 0x100200 ≤ a then tar_entry 97 (smallElf 0x1000 1) (a - 0x100200).toNat
          else if a = 0x100000 then 100
          else 0 } }

/-- The moves `ms` from the beginning of that machine. -/
def storing (C : Kernel → Move → Prop) [∀ k m, Decidable (C k m)] (address : UInt64) (b : UInt8) (ms : List Move) :
    Kern Kernel := do
  let k ← start (storing_machine address b) 0x1234
  moves C k ms

theorem storing_ok {C : Kernel → Move → Prop} [∀ k m, Decidable (C k m)] {address : UInt64} {b : UInt8}
    {ms : List Move} {k : Kernel} (h : storing C address b ms = .ok k) :
    ∃ k₀, Started k₀ ∧ Lib.Run Moves C k₀ ms k := by
  obtain ⟨k₀, h₀, h⟩ := bind_ok.1 h
  exact ⟨k₀, ⟨storing_machine address b, _, ⟨rfl, rfl, rfl, rfl, rfl, rfl, rfl⟩, h₀⟩, moves_ok h⟩

/-- A system call with a number and three arguments. -/
def system_call (rax rbx rcx rdx : UInt64) (string : List UInt8) : Call :=
  ⟨⟨rax, rbx, rcx, rdx, 0, 0, 0, 0, 0⟩, string, 0⟩

end Compute

end Iridium
