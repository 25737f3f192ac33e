import Iridium.Proc.Effect

/-!
# The running process

An interrupt can come whenever a process runs, and in the loop at the end of `kill`, where
`current_task` is the descriptor `kill` has just unlinked and freed. The keyboard's
interrupt reads it, and the parent it names; the timer's writes to it. So as soon as a
process is killed, the next interrupt touches a dead descriptor, and before that none does.
-/

namespace Iridium

/-- **An interrupt finds live descriptors**: the running process is in the queue, and so is
its parent when it is a signal handler. -/
structure CurrentLive (k : Kernel) : Prop where
  current : k.Live k.current_task
  parent : k.current.isHandler = true → k.Live k.current.parent

/-- Nobody is killed: who exits or faults is refused. -/
def NobodyKilled (k : Kernel) (e : Action × UInt64) : Prop :=
  e.1.exits = true → refused k k.current.pid = true

instance (k : Kernel) (e : Action × UInt64) : Decidable (NobodyKilled k e) :=
  inferInstanceAs (Decidable (_ → _))

/-- The processor runs a process, and the parents of the signal handlers are in the queue. -/
structure ParentsLive (k : Kernel) : Prop where
  running : k.spinning = false
  parent : ∀ p, k.Live p → (k.procs p).isHandler = true → k.Live (k.procs p).parent

section Current

variable {k k' : Kernel} {a : Action} {o : UInt64}

theorem ParentsLive.currentLive (hw : k.WellFormed) (h : ParentsLive k) : CurrentLive k :=
  ⟨hw.running h.running, h.parent _ (hw.running h.running)⟩

/-- Links and roles that stay. -/
theorem ParentsLive.same (h : ParentsLive k) (hs : k.SameLinks k') (hr : k'.spinning = false)
    (hp : ∀ p, k.Live p → (k.procs p).SameRole (k'.procs p)) : ParentsLive k' := by
  refine ⟨hr, fun p hl => ?_⟩
  rw [hs.live] at hl ⊢
  rw [(hp p hl).isHandler, (hp p hl).parent]
  exact h.parent p hl

/-- A new process, whose parent is in the queue when it is a signal handler. -/
theorem ParentsLive.link {rip : UInt64} {path : List UInt8} {p : ℕ} {ctx : ℕ → UInt64} {mm : Mm}
    {q : Process} (hw : k.WellFormed) (h : ParentsLive k) (hs : Spawned k rip path p ctx mm)
    (hn : q.next = k.queue_base) (hv : q.prev = k.queue_head)
    (hq : q.isHandler = true → k.Live q.parent) : ParentsLive (k.link p q mm) := by
  refine ⟨h.running, fun r hl => ?_⟩
  rw [hw.live_link hs hn hv] at hl ⊢
  rcases hl with hl | rfl
  · have hrole : (k.procs r).SameRole ((k.link p q mm).procs r) :=
      sameRole_link (Kernel.fresh_ne hs (hw.le hl))
    rw [hrole.isHandler, hrole.parent]
    exact fun hh => .inl (h.parent r hl hh)
  · rw [Kernel.link_procs_self]
    exact fun hh => .inl (hq hh)

/-- **As long as nobody is killed** a process runs, and the parents stay. -/
theorem ParentsLive.effect (hw : k.WellFormed) (h : ParentsLive k) (hC : NobodyKilled k (a, o))
    (hE : Effect k a o k') : ParentsLive k' := by
  have hrole := fun p (hp : k.Live p) => hw.sameRole hE (hw.le hp)
  cases hE with
  | quiet hq => exact h.same hq.sameLinks (hq.spinning.trans h.running) hrole
  | read =>
    exact h.same (Kernel.sameLinks_read k) ((Kernel.current_read k).2.trans h.running) hrole
  | hook => exact h.same (Kernel.sameLinks_hook k _) h.running hrole
  | queued => exact h.same (Kernel.sameLinks_deliver k _ _ _) h.running hrole
  | @handled _ _ x dest dword p _ _ _ _ hr _ hs =>
    have hd := Kernel.sameLinks_deliver k x p dword
    refine (h.same hd h.running fun r _ => sameRole_deliver).link (hw.deliver x p dword) hs rfl rfl
      fun _ => ?_
    exact hd.live.2 (recipient_mem hr)
  | spawned _ hs => exact h.link hw hs rfl rfl fun hh => absurd hh (Bool.eq_false_iff.1 spawned_isHandler)
  | exited ha _ hr =>
    rw [hC ha] at hr
    cases hr
  | timer =>
    refine h.same (Kernel.sameLinks_timer k _) ?_ hrole
    rw [irq0_isr_fst]

end Current

/-- **In every run in which nobody is killed** an interrupt finds live descriptors; and the
next step leaves it so exactly when it kills nobody either. -/
theorem current_live_of_nobody_killed {es : List (Action × UInt64)} {k : Kernel}
    (h : RunsTo NobodyKilled es k) :
    CurrentLive k ∧ ∀ e k', Step k e k' → (CurrentLive k' ↔ NobodyKilled k e) := by
  have hw := h.wellFormed
  have hp : ParentsLive k := h.invariant
    (fun _ hb => ⟨hb.spinning, fun _ hl hh => absurd hh (hb.no_handler hl)⟩)
    fun hw h hC hE => h.effect hw hC hE
  refine ⟨hp.currentLive hw, fun e k' hS => ⟨fun hc ha => ?_, fun hC => ?_⟩⟩
  · by_contra hr
    have hr := Bool.not_eq_true _ ▸ hr
    obtain ⟨hs, hu, pmm, -, rfl⟩ := (hS.effect hw).killed ha hr
    exact ((hw.live_killed (hw.running hs) hr hu).1 hc.current).1 rfl
  · have hp' := hp.effect hw hC (hS.effect hw)
    exact hp'.currentLive (hS.wellFormed hw)

/-- Nobody is killed when a process is spawned and runs. -/
theorem current_live_of_nobody_killed_spawned : ∃ es k, RunsTo NobodyKilled es k ∧
    k.current_task ≠ k.queue_base ∧ CurrentLive k := by
  obtain ⟨es, k, h, hn⟩ := traces_true NobodyKilled
    (fun k => decide (k.current_task ≠ k.queue_base))
    [.initrd_spawn [65] 0 1, .timer quietTick] (by decide +kernel)
  exact ⟨es, k, h, of_decide_eq_true hn, (current_live_of_nobody_killed h).1⟩

/-- A process is spawned, runs and exits: the next interrupt finds its descriptor, which is
no longer in the queue. -/
theorem current_not_live : ¬∀ k, Reachable k → CurrentLive k := by
  obtain ⟨es, k, h, hn⟩ := traces_true Always (fun k => decide ¬k.Live k.current_task)
    [.initrd_spawn [65] 0 1, .timer quietTick, .exit] (by decide +kernel)
  exact fun hall => of_decide_eq_true hn (hall k ⟨es, h⟩).current

end Iridium
