import Iridium.Proc.Effect

/-!
# The parents of signal handlers

A signal handler names the process it handles signals for as its parent: `psignal_send` reads
the PID there, `psignal_read` unlocks and pops the queue there. The link is made by
`psignal_exec_callback` and is never looked at when a process is killed. So a parent that exits
before its handlers leaves them with a descriptor that is no longer in the queue, and as long
as none does every parent is.
-/

namespace Iridium

/-- **The parents are in the queue**: those of the signal handlers in the queue, and the one
that the kernel reads for the running process. -/
structure ParentsLinked (k : Kernel) : Prop where
  handlers : ∀ p, k.Live p → (k.procs p).isHandler = true → k.Live (k.procs p).parent
  current : k.current.isHandler = true → k.Live k.current.parent

/-- Who is killed is the parent of no signal handler in the queue. -/
def NoOrphan (k : Kernel) (e : Action × UInt64) : Prop :=
  e.1.exits = true → refused k k.current.pid = false →
    ∀ p ∈ k.queue, (k.procs p).isHandler = true → (k.procs p).parent ≠ k.current_task

instance (k : Kernel) (e : Action × UInt64) : Decidable (NoOrphan k e) :=
  inferInstanceAs (Decidable (_ → _ → _))

section Parents

variable {k k' : Kernel} {a : Action} {o : UInt64}

/-- Only the timer changes the running process. -/
theorem current_task_eq (hE : Effect k a o k') (ha : ∀ t, a ≠ .timer t) :
    k'.current_task = k.current_task := by
  cases hE with
  | quiet hq => exact hq.current_task
  | read => exact (Kernel.current_read k).1
  | hook => rfl
  | queued => rfl
  | handled => rfl
  | spawned => rfl
  | exited => rfl
  | timer => exact absurd rfl (ha _)

/-- Who is in the queue stays there, unless it is killed. -/
theorem live_of_not_killed (hw : k.WellFormed) (hE : Effect k a o k') {p : ℕ} (hp : k.Live p)
    (hk : a.exits = true → refused k k.current.pid = false → p ≠ k.current_task) : k'.Live p := by
  unfold Kernel.Live
  rcases hw.queue_effect hE with ⟨ha, hr, hq⟩ | ⟨-, -, hq⟩ | ⟨-, -, hq⟩
  · rw [hq]
    exact (List.mem_erase_of_ne (hk ha hr)).2 hp
  · rw [hq]
    exact List.mem_append_left _ hp
  · rw [hq]
    exact hp

/-- **A step that makes no orphan** keeps the parents in the queue. -/
theorem ParentsLinked.effect (hw : k.WellFormed) (h : ParentsLinked k) (hC : NoOrphan k (a, o))
    (hE : Effect k a o k') : ParentsLinked k' := by
  have hold : ∀ p, k.Live p → (k'.procs p).isHandler = true → k'.Live (k'.procs p).parent := by
    intro p hp hh
    have hrole := hw.sameRole hE (hw.le hp)
    rw [hrole.isHandler] at hh
    rw [hrole.parent]
    exact live_of_not_killed hw hE (h.handlers p hp hh) fun ha hr => hC ha hr p hp hh
  have hall : ∀ p, k'.Live p → (k'.procs p).isHandler = true → k'.Live (k'.procs p).parent := by
    intro p hp hh
    by_cases hl : k.Live p
    · exact hold p hl hh
    · rcases created hw hE hl hp with hc | hc
      · rw [hc.not_handler] at hh
        cases hh
      · refine live_of_not_killed hw hE hc.owner fun ha hr => ?_
        -- nobody is made when somebody is killed
        obtain ⟨hs, hu, pmm, -, rfl⟩ := hE.killed ha hr
        exact absurd ((hw.live_killed (hw.running hs) hr hu).1 hp).2 hl
  refine ⟨hall, fun hh => ?_⟩
  by_cases ht : ∃ t, a = .timer t
  · obtain ⟨t, rfl⟩ := ht
    refine hall _ ?_ hh
    exact (hw.effect hE).running (by rw [hE.timer_eq, irq0_isr_fst])
  · have hcur := current_task_eq hE fun t ht' => ht ⟨t, ht'⟩
    have hrole := hw.sameRole hE hw.current_le
    unfold Kernel.current at hh ⊢
    rw [hcur, hrole.isHandler] at hh
    rw [hcur, hrole.parent]
    refine live_of_not_killed hw hE (h.current hh) fun ha hr => ?_
    exact hC ha hr _ (hw.running (hE.killed ha hr).1) hh

/-- A step that makes an orphan does not. -/
theorem ParentsLinked.noOrphan (hw : k.WellFormed) (hE : Effect k a o k') (h : ParentsLinked k') :
    NoOrphan k (a, o) := by
  intro ha hr p hp hh hpar
  have hrole := hw.sameRole hE (hw.le hp)
  obtain ⟨hs, hu, pmm, -, rfl⟩ := hE.killed ha hr
  have hdead : ¬(killed k k.current_task pmm).Live k.current_task := fun hl =>
    ((hw.live_killed (hw.running hs) hr hu).1 hl).1 rfl
  have hlive : (killed k k.current_task pmm).Live ((killed k k.current_task pmm).procs p).parent := by
    by_cases hc : p = k.current_task
    · subst hc
      exact h.current (hrole.isHandler.trans hh)
    · refine h.handlers p ?_ (hrole.isHandler.trans hh)
      exact (hw.live_killed (hw.running hs) hr hu).2 ⟨hc, hp⟩
  rw [hrole.parent, hpar] at hlive
  exact hdead hlive

end Parents

/-- **In every run that makes no orphan** the parents are in the queue; and the next step keeps
them there exactly when it makes none either. -/
theorem parents_linked_of_no_orphan {es : List (Action × UInt64)} {k : Kernel} (h : RunsTo NoOrphan es k) :
    ParentsLinked k ∧ ∀ e k', Step k e k' → (ParentsLinked k' ↔ NoOrphan k e) := by
  have hw := h.wellFormed
  have hp : ParentsLinked k := by
    refine h.invariant (fun _ hb => ⟨fun p hl hh => ?_, fun hh => ?_⟩) fun hw h hC hE => h.effect hw hC hE
    · exact absurd hh (hb.no_handler hl)
    · exact absurd hh (Bool.eq_false_iff.1 hb.not_handler)
  refine ⟨hp, fun e k' hS => ⟨fun hl => ?_, fun hC => ?_⟩⟩
  · exact hl.noOrphan hw (hS.effect hw)
  · exact hp.effect hw hC (hS.effect hw)

/-- The first process sends itself a signal, and the handler runs. -/
theorem parents_linked_of_no_orphan_handled : ∃ es k, RunsTo NoOrphan es k ∧
    k.current.isHandler = true ∧ k.Live k.current.parent := by
  obtain ⟨es, k, h, hn⟩ := traces_true NoOrphan (fun k => k.current.isHandler)
    [.psignal_hook 0x5000, .psignal_send 1 0, .timer quietTick] (by decide +kernel)
  exact ⟨es, k, h, hn, (parents_linked_of_no_orphan h).1.current hn⟩

/-- A process sends itself a signal and exits: its handler is still in the queue. -/
theorem parents_not_linked : ¬∀ k, Reachable k → ParentsLinked k := by
  obtain ⟨es, k, h, hn⟩ := traces_true Always
    (fun k => k.queue.any fun p => (k.procs p).isHandler && decide ¬k.Live (k.procs p).parent)
    [.initrd_spawn [65] 0 1, .timer quietTick, .psignal_hook 0x5000, .psignal_send 2 0, .exit]
    (by decide +kernel)
  obtain ⟨p, hp, hn⟩ := List.any_eq_true.1 hn
  rw [Bool.and_eq_true, decide_eq_true_eq] at hn
  exact fun hall => hn.2 ((hall k ⟨es, h⟩).handlers p hp hn.1)

end Iridium
