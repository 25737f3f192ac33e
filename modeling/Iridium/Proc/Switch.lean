import Iridium.Proc.Effect

/-!
# What a task finds when it goes on

`switch_task` saves nine registers and the calls before it have overwritten some of them; it
takes the stack pointer of the interrupted task from `[rsp - 24]`, below the stack, where it is
at `[rsp + 24]`, and puts that of the next task there too. So a task that goes on finds its
`rbx`, `rbp` and `rip`, and of the rest what happens to agree: `resumes_iff` says what has to.

The runs here carry two things the kernel does not keep: at which interrupt each task was last
interrupted, and the context it began with.
-/

namespace Iridium

open Reg

/-! ### The registers after a switch -/

/-- The address `index_context` leaves in `r11`. -/
def last_slot (p : ℕ) : UInt64 := proc_get_context p + 40

/-- **The registers** that a timer interrupt leaves for the process after the running one, whose
context is `c`. -/
def resumed (k : Kernel) (t : Tick) (c : ℕ → UInt64) : Regs
  | rax => c PCTX_RAX
  | rbx => c PCTX_RBX
  | rcx => c PCTX_RCX
  | rdx => c PCTX_RDX
  | rsi => t.proc_get_context'.rsi
  | rdi => t.proc_get_context'.rdi
  | rbp => c PCTX_RBP
  | rsp => t.regs rsp
  | r8 => t.proc_get_context'.r8
  | r9 => t.proc_get_context'.r9
  | r10 => c PCTX_RSP
  | r11 => last_slot (next_running k)
  | r12 => t.regs r12
  | r13 => t.regs r13
  | r14 => t.regs r14
  | r15 => t.regs r15
  | rip => c PCTX_RIP

/-- The machine when the next process has become the running one. -/
def between (k : Kernel) (t : Tick) : Kernel × Cpu :=
  let (k, c) := save_context k (irq0_entry t) t
  next_task k c t

theorem between_fst (k : Kernel) (t : Tick) :
    (between k t).1 = { switched k t with current_task := next_running k } := by
  unfold between
  have hs := save_context_fst k t
  generalize save_context k (irq0_entry t) t = kc at hs
  obtain ⟨k₁, c⟩ := kc
  obtain rfl : k₁ = saved k t := hs
  exact next_task_fst k t c

/-- The second half of the switch, from the registers and the frame it finds. -/
theorem restored_eq (k : Kernel) (c : Cpu) (r : Reg) : iretq (restore_context k c).2 r =
    match r with
    | rax => k.current.context PCTX_RAX
    | rbx => k.current.context PCTX_RBX
    | rcx => k.current.context PCTX_RCX
    | rdx => k.current.context PCTX_RDX
    | rbp => k.current.context PCTX_RBP
    | rsp => c.frame_rsp
    | r10 => k.current.context PCTX_RSP
    | r11 => last_slot k.current_task
    | rip => k.current.context PCTX_RIP
    | r => c.regs r := by
  cases r <;> rfl

/-- The context of the next process, as the switch finds it. -/
def next_context (k : Kernel) (t : Tick) : ℕ → UInt64 :=
  if next_running k = k.current_task then saved_context k t else (k.procs (next_running k)).context

theorem between_context (k : Kernel) (t : Tick) : (between k t).1.current.context = next_context k t := by
  rw [between_fst]
  show ((switched k t).procs (next_running k)).context = _
  unfold next_context
  by_cases hc : next_running k = k.current_task
  · simp [switched, saved, Kernel.modify, hc]
  · simp [switched, saved, Kernel.modify, hc]

/-- **The registers after a timer interrupt.** -/
theorem irq0_isr_snd (k : Kernel) (t : Tick) : (irq0_isr k t).2 = resumed k t (next_context k t) := by
  have hregs : (irq0_isr k t).2 = iretq (restore_context (between k t).1 (between k t).2).2 := by
    unfold irq0_isr between
    generalize save_context k (irq0_entry t) t = kc
    obtain ⟨k₁, c⟩ := kc
    rfl
  have htask : (between k t).1.current_task = next_running k := by rw [between_fst]
  funext r
  rw [hregs, restored_eq, between_context, htask]
  cases r <;> rfl

/-! ### What the kernel forgets -/

/-- A state, with the interrupt at which each process was last interrupted, if it was, and the
context it began with. -/
structure Traced where
  k : Kernel
  last : ℕ → Option Tick
  first : ℕ → ℕ → UInt64

namespace Traced

/-- The interrupts at which the processes were last interrupted, this one included. -/
def interrupted (s : Traced) (t : Tick) : ℕ → Option Tick :=
  if s.k.spinning then s.last else Function.update s.last s.k.current_task (some t)

/-- What is remembered when an action has led to the state `k'`. -/
def after (s : Traced) (a : Action) (k' : Kernel) : Traced where
  k := k'
  last := match a with
    | .timer t => s.interrupted t
    | _ => s.last
  first := fun p => if s.k.Live p then s.first p else (k'.procs p).context

/-- The state at the end of `proc_init`: nobody was interrupted. -/
def begin (k : Kernel) : Traced := ⟨k, fun _ => none, fun p => (k.procs p).context⟩

/-- A run that remembers. -/
def RunsTo (es : List (Action × UInt64)) (s : Traced) : Prop :=
  ∃ k₀, Started k₀ ∧
    Lib.Run (fun s e s' => Step s.k e s'.k ∧ s' = s.after e.1 s'.k) (fun _ _ => True) (begin k₀) es s

/-- **The next process goes on where it was interrupted**: every register is what it was. A
process that was never interrupted begins with the `rip` and `rsp` of its first context. -/
def Resumes (s : Traced) (t : Tick) : Prop :=
  match s.interrupted t (next_running s.k) with
  | some last => ∀ r, (irq0_isr s.k t).2 r = last.regs r
  | none => (irq0_isr s.k t).2 rip = s.first (next_running s.k) PCTX_RIP ∧
      (irq0_isr s.k t).2 rsp = s.first (next_running s.k) PCTX_RSP

end Traced

/-- The calls before the registers are saved have not changed them, and the slot below the stack
held `r10`. -/
structure Kept (t : Tick) : Prop where
  rax : t.lapic_send_eoi.rax = t.regs .rax
  rdx : t.proc_get_context.rdx = t.regs .rdx
  rcx : t.proc_get_context.rcx = t.regs .rcx
  r10 : t.proc_get_context.below = t.regs .r10

/-- What is not saved agrees: the registers of the process interrupted now and of the process at
`p` at the interrupt `last`, and what the calls leave. -/
structure Agrees (p : ℕ) (t last : Tick) : Prop where
  rsp : t.regs .rsp = last.regs .rsp
  rsi : t.proc_get_context'.rsi = last.regs .rsi
  rdi : t.proc_get_context'.rdi = last.regs .rdi
  r8 : t.proc_get_context'.r8 = last.regs .r8
  r9 : t.proc_get_context'.r9 = last.regs .r9
  r11 : last_slot p = last.regs .r11
  r12 : t.regs .r12 = last.regs .r12
  r13 : t.regs .r13 = last.regs .r13
  r14 : t.regs .r14 = last.regs .r14
  r15 : t.regs .r15 = last.regs .r15

/-- **What has to coincide** for the next process to go on. -/
def Traced.Coincides (s : Traced) (t : Tick) : Prop :=
  match s.interrupted t (next_running s.k) with
  | some last => Kept last ∧ Agrees (next_running s.k) t last
  | none => t.regs rsp = s.first (next_running s.k) PCTX_RSP

/-- The context `c` was saved at the interrupt `t`. -/
structure SavedAt (t : Tick) (c : ℕ → UInt64) : Prop where
  rbp : c PCTX_RBP = t.regs .rbp
  rsp : c PCTX_RSP = t.proc_get_context.below
  rbx : c PCTX_RBX = t.regs .rbx
  rdx : c PCTX_RDX = t.proc_get_context.rdx
  rcx : c PCTX_RCX = t.proc_get_context.rcx
  rax : c PCTX_RAX = t.lapic_send_eoi.rax
  rip : c PCTX_RIP = t.regs .rip

theorem saved_context_savedAt (k : Kernel) (t : Tick) : SavedAt t (saved_context k t) := by
  constructor <;> rfl

/-- The registers are right exactly when what is not saved agrees. -/
theorem resumed_eq_iff {k : Kernel} {t last : Tick} {c : ℕ → UInt64} (h : SavedAt last c) :
    (∀ r, resumed k t c r = last.regs r) ↔ Kept last ∧ Agrees (next_running k) t last := by
  constructor
  · intro hr
    exact ⟨⟨h.rax ▸ hr .rax, h.rdx ▸ hr .rdx, h.rcx ▸ hr .rcx, h.rsp ▸ hr .r10⟩,
      ⟨hr .rsp, hr .rsi, hr .rdi, hr .r8, hr .r9, hr .r11, hr .r12, hr .r13, hr .r14, hr .r15⟩⟩
  · rintro ⟨hk, ha⟩ r
    cases r with
    | rax => exact h.rax.trans hk.rax
    | rbx => exact h.rbx
    | rcx => exact h.rcx.trans hk.rcx
    | rdx => exact h.rdx.trans hk.rdx
    | rbp => exact h.rbp
    | r10 => exact h.rsp.trans hk.r10
    | rip => exact h.rip
    | rsp => exact ha.rsp
    | rsi => exact ha.rsi
    | rdi => exact ha.rdi
    | r8 => exact ha.r8
    | r9 => exact ha.r9
    | r11 => exact ha.r11
    | r12 => exact ha.r12
    | r13 => exact ha.r13
    | r14 => exact ha.r14
    | r15 => exact ha.r15

/-! ### What the contexts hold -/

/-- The context `c` is what was saved when the process was last interrupted, or the one it began
with. -/
def Recalled (last : Option Tick) (first c : ℕ → UInt64) : Prop :=
  match last with
  | some t => SavedAt t c
  | none => c = first

namespace Traced

/-- The contexts of the live processes are the ones remembered, and of the memory that is not
allocated nothing is remembered. -/
structure Remembers (s : Traced) : Prop where
  wellFormed : s.k.WellFormed
  live : ∀ p, s.k.Live p → Recalled (s.last p) (s.first p) (s.k.procs p).context
  beyond : ∀ p, s.k.frontier < p → s.last p = none

variable {s s' : Traced} {t : Tick} {p : ℕ}

/-- A process that runs is interrupted. -/
theorem interrupted_self (hs : s.k.spinning = false) : s.interrupted t s.k.current_task = some t := by
  rw [Traced.interrupted, if_neg (ne_true_of_eq_false hs), Function.update_self]

/-- No other process is. -/
theorem interrupted_of_ne (hp : p ≠ s.k.current_task) : s.interrupted t p = s.last p := by
  rw [Traced.interrupted]
  split
  · rfl
  · exact Function.update_of_ne hp _ _

/-- The contexts once a timer interrupt has saved one. -/
theorem Remembers.interrupted (h : s.Remembers) (hp : s.k.Live p) :
    Recalled (s.interrupted t p) (s.first p)
      (if p = s.k.current_task then saved_context s.k t else (s.k.procs p).context) := by
  by_cases hc : p = s.k.current_task
  · -- when the processor spins, what is saved goes to a process that is dead
    have hs : s.k.spinning = false := by
      by_contra hs
      exact (h.wellFormed.dead (Bool.not_eq_false _ ▸ hs)).1 (hc ▸ hp)
    rw [if_pos hc, hc, interrupted_self hs]
    exact saved_context_savedAt s.k t
  · rw [if_neg hc, interrupted_of_ne hc]
    exact h.live p hp

theorem Remembers.interrupted_beyond (h : s.Remembers) (hp : s.k.frontier < p) :
    s.interrupted t p = none := by
  have hne : p ≠ s.k.current_task := by
    have := h.wellFormed.current_le
    omega
  rw [interrupted_of_ne hne]
  exact h.beyond p hp

/-- The timer interrupt keeps the contexts remembered. -/
theorem Remembers.timer (h : s.Remembers) (hw : (irq0_isr s.k t).1.WellFormed) :
    (s.after (.timer t) (irq0_isr s.k t).1).Remembers := by
  have hl := Kernel.sameLinks_timer s.k t
  refine ⟨hw, ?_, ?_⟩
  · intro p hp
    have hlive : s.k.Live p := hl.live.1 hp
    show Recalled (s.interrupted t p) (if s.k.Live p then s.first p else _)
      ((irq0_isr s.k t).1.procs p).context
    rw [if_pos hlive, irq0_isr_procs]
    exact h.interrupted hlive
  · intro p hp
    exact h.interrupted_beyond (by rw [← hl.frontier]; exact hp)

/-- Every other action leaves the contexts alone, and a new process begins with its own. -/
theorem Remembers.other {a : Action} {o : UInt64} {k' : Kernel} (h : s.Remembers) (hE : Effect s.k a o k')
    (ha : ∀ t, a ≠ .timer t) : (s.after a k').Remembers := by
  have hlast : (s.after a k').last = s.last := by
    cases a with
    | timer t => exact absurd rfl (ha t)
    | _ => rfl
  refine ⟨h.wellFormed.effect hE, ?_, ?_⟩
  · intro p hp
    rw [hlast]
    show Recalled (s.last p) (if s.k.Live p then s.first p else (k'.procs p).context) (k'.procs p).context
    by_cases hlive : s.k.Live p
    · rw [if_pos hlive, (h.wellFormed.unscheduled hE (h.wellFormed.le hlive) ha).2]
      exact h.live p hlive
    · have hfresh : s.k.frontier < p := by
        rcases created h.wellFormed hE hlive hp with hc | hc
        · exact hc.fresh
        · exact hc.fresh
      rw [if_neg hlive, h.beyond p hfresh]
      rfl
  · intro p hp
    rw [hlast]
    exact h.beyond p (lt_of_le_of_lt (frontier_le hE) hp)

/-- **In every run** the contexts are the ones remembered. -/
theorem RunsTo.remembers {es : List (Action × UInt64)} (h : RunsTo es s) : s.Remembers := by
  obtain ⟨k₀, h₀, hr⟩ := h
  refine hr.invariant (I := Remembers) ⟨h₀.booted.1, fun _ _ => rfl, fun _ _ => rfl⟩ ?_
  rintro s s' ⟨a, o⟩ hI - ⟨hS, hs⟩
  have hE := hS.effect hI.wellFormed
  rw [hs]
  by_cases ha : ∃ t, a = .timer t
  · obtain ⟨t, rfl⟩ := ha
    have hk : s'.k = (irq0_isr s.k t).1 := hE.timer_eq
    rw [hk]
    exact hI.timer (hk ▸ hS.wellFormed hI.wellFormed)
  · exact hI.other hE fun t ht => ha ⟨t, ht⟩

/-- **A process goes on where it was interrupted** exactly when all that is not saved agrees. -/
theorem resumes_iff {es : List (Action × UInt64)} (h : RunsTo es s) (t : Tick) :
    s.Resumes t ↔ s.Coincides t := by
  have hnext : Recalled (s.interrupted t (next_running s.k)) (s.first (next_running s.k))
      (next_context s.k t) := h.remembers.interrupted h.remembers.wellFormed.next_live
  unfold Resumes Coincides
  rw [irq0_isr_snd]
  cases hi : s.interrupted t (next_running s.k) with
  | some last =>
    rw [hi] at hnext
    exact resumed_eq_iff hnext
  | none =>
    rw [hi] at hnext
    have hc : next_context s.k t = s.first (next_running s.k) := hnext
    rw [hc]
    exact ⟨fun hr => hr.2, fun hr => ⟨rfl, hr⟩⟩

/-! ### Two tasks -/

theorem RunsTo.step {es : List (Action × UInt64)} {e : Action × UInt64} {k' : Kernel} (h : RunsTo es s)
    (hS : Step s.k e k') : RunsTo (es ++ [e]) (s.after e.1 k') := by
  obtain ⟨k₀, h₀, hr⟩ := h
  exact ⟨k₀, h₀, hr.snoc trivial ⟨hS, rfl⟩⟩

/-- The first process spawns another and is interrupted: at the next interrupt it is its turn. -/
theorem turn (t : Kernel → Tick) : ∃ es s k, RunsTo es s ∧
    next_running s.k = k.current_task ∧ s.k.current_task ≠ k.current_task ∧
    s.last k.current_task = some (t k) := by
  have h : answers (start machine 0x1234) (fun k₀ => answers (act k₀ (.initrd_spawn [65] 0 1)) fun r =>
      !r.2.spinning && decide (next_running r.2 ≠ r.2.current_task) &&
        decide ((r.2.procs (next_running r.2)).next = r.2.current_task)) = true := by
    decide +kernel
  obtain ⟨k₀, h₀, h⟩ := answers_iff.1 h
  obtain ⟨⟨o, k⟩, h₁, h⟩ := answers_iff.1 h
  simp only [Bool.and_eq_true, Bool.not_eq_true', decide_eq_true_eq] at h
  obtain ⟨⟨hs, hne⟩, hback⟩ := h
  have hstarted : Started k₀ := ⟨machine, _, machine_powerOn, h₀⟩
  have hruns : Enabled k₀ (.initrd_spawn [65] 0 1) := fun hsp => by
    rw [hstarted.booted.2.spinning] at hsp
    cases hsp
  have hstart : RunsTo [] (begin k₀) := ⟨k₀, hstarted, .nil⟩
  have hstep₁ : Step k₀ (.initrd_spawn [65] 0 1, o) k := ⟨hruns, h₁⟩
  have hstep₂ : Step k (.timer (t k), 0) (irq0_isr k (t k)).1 := ⟨fun _ => rfl, rfl⟩
  have hspawn := hstart.step hstep₁
  have htick := hspawn.step hstep₂
  have hcur : (irq0_isr k (t k)).1.current_task = next_running k := by rw [irq0_isr_fst]
  refine ⟨_, _, k, htick, ?_, ?_, ?_⟩
  · show ((irq0_isr k (t k)).1.procs (irq0_isr k (t k)).1.current_task).next = _
    rw [hcur, irq0_isr_procs]
    exact hback
  · show (irq0_isr k (t k)).1.current_task ≠ _
    rwa [hcur]
  · exact interrupted_self (s := (begin k₀).after (.initrd_spawn [65] 0 1) k) hs

/-- The registers of a task whose `r11` happens to be right. -/
def luckyTick (k : Kernel) : Tick :=
  { quietTick with regs := Function.update quietTick.regs r11 (last_slot k.current_task) }

/-- Two tasks with the same registers, the first of which goes on. -/
theorem resumes_iff_lucky : ∃ es s k, RunsTo es s ∧
    s.interrupted (luckyTick k) (next_running s.k) = some (luckyTick k) ∧ s.Resumes (luckyTick k) := by
  obtain ⟨es, s, k, h, hn, hne, hl⟩ := turn luckyTick
  have hi : s.interrupted (luckyTick k) (next_running s.k) = some (luckyTick k) := by
    rw [hn, interrupted_of_ne hne.symm]
    exact hl
  refine ⟨es, s, k, h, hi, (resumes_iff h (luckyTick k)).2 ?_⟩
  unfold Coincides
  rw [hi]
  refine ⟨⟨rfl, rfl, rfl, rfl⟩, ⟨rfl, rfl, rfl, rfl, rfl, ?_, rfl, rfl, rfl, rfl⟩⟩
  rw [hn]
  rfl

/-- The registers of a task with a stack of its own. -/
def stackTick (top : UInt64) : Tick :=
  { quietTick with regs := Function.update quietTick.regs rsp top }

/-- Two tasks with their own stacks: the first goes on with the stack of the second. -/
theorem not_resumes : ¬∀ es s t, RunsTo es s → s.Resumes t := by
  intro hall
  obtain ⟨es, s, k, h, hn, hne, hl⟩ := turn fun _ => stackTick 0x7000
  have hr := hall es s (stackTick 0x8000) h
  unfold Resumes at hr
  have hi : s.interrupted (stackTick 0x8000) (next_running s.k) = some (stackTick 0x7000) := by
    rw [hn, interrupted_of_ne hne.symm]
    exact hl
  rw [hi, irq0_isr_snd] at hr
  have hrsp : (stackTick 0x8000).regs rsp = (stackTick 0x7000).regs rsp := hr rsp
  exact absurd hrsp (by decide)

end Traced

end Iridium
