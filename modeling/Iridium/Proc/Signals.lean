import Iridium.Proc.Effect

/-!
# The bounds of the signal queues

A queue has room for `PSIGNAL_QUEUE_SIZE` signals, and `psignal_send` asks before it writes.
`psignal_read` asks too, but asks the queue of the running process, and a signal handler pops
the queue of its parent. The handler's own queue is a copy that is never emptied, so a handler
that reads once more than there are signals takes `next_index` of its parent below zero, where
it wraps to 255. This is the only way out of the bounds (`pops_empty`).
-/

namespace Iridium

/-- The cell of a signal queue that an action reads or writes, if it does. -/
def accesses (k : Kernel) (a : Action) : Option UInt8 :=
  match a with
  | .psignal_read =>
    if k.current.sigq.next_index = 0 then none
    else some ((k.procs (signal_owner k)).sigq.next_index - 1)
  | _ =>
    match a.sends k with
    | some (_, dest, _) => (recipient k dest).map fun p => (k.procs p).sigq.next_index
    | none => none

/-- The cell is in the queue. -/
def AccessOk (k : Kernel) (a : Action) : Prop := ∀ i, accesses k a = some i → i < PSIGNAL_QUEUE_SIZE

/-- A process, or the parent of a signal handler: its queue is used. -/
def Used (k : Kernel) (p : ℕ) : Prop :=
  k.Live p ∨ ∃ h, k.Live h ∧ (k.procs h).isHandler = true ∧ (k.procs h).parent = p

/-- **The queues are in bounds.** -/
def QueuesBounded (k : Kernel) : Prop := ∀ p, Used k p → (k.procs p).sigq.next_index ≤ PSIGNAL_QUEUE_SIZE

/-- A signal handler whose own queue is not empty reads, and the queue of its parent is. -/
def pops_empty (k : Kernel) (a : Action) : Bool :=
  match a with
  | .psignal_read =>
    k.current.isHandler && k.current.sigq.next_index != 0 &&
      (k.procs k.current.parent).sigq.next_index == 0
  | _ => false

/-- No signal handler takes a signal out of an empty queue. -/
def NoEmptyPop (k : Kernel) (e : Action × UInt64) : Prop := pops_empty k e.1 = false

instance (k : Kernel) (e : Action × UInt64) : Decidable (NoEmptyPop k e) :=
  inferInstanceAs (Decidable (_ = _))

/-- The queues are in bounds, and the parents of signal handlers are no descriptors to come. -/
structure Bounded (k : Kernel) : Prop where
  live : ∀ p, k.Live p → (k.procs p).sigq.next_index ≤ PSIGNAL_QUEUE_SIZE
  parent : ∀ h, k.Live h → (k.procs h).isHandler = true →
    (k.procs h).parent ≤ k.frontier ∧ (k.procs (k.procs h).parent).sigq.next_index ≤ PSIGNAL_QUEUE_SIZE

section Signals

variable {k k' : Kernel} {a : Action} {o : UInt64}

theorem Bounded.queuesBounded (h : Bounded k) : QueuesBounded k := by
  rintro p (hp | ⟨c, hc, hh, rfl⟩)
  · exact h.live p hp
  · exact (h.parent c hc hh).2

/-- The index of a full queue goes up to the bound, and no further. -/
theorem index_succ {i : UInt8} (h : i < PSIGNAL_QUEUE_SIZE) : i + 1 ≤ PSIGNAL_QUEUE_SIZE := by
  rw [UInt8.lt_iff_toNat_lt] at h
  rw [UInt8.le_iff_toNat_le, UInt8.toNat_add]
  simp [PSIGNAL_QUEUE_SIZE] at *
  omega

/-- The index of a queue that is not empty goes down. -/
theorem index_pred {i : UInt8} (h : i ≤ PSIGNAL_QUEUE_SIZE) (h0 : i ≠ 0) : i - 1 < PSIGNAL_QUEUE_SIZE := by
  have h0' : i.toNat ≠ 0 := fun h => h0 (UInt8.toNat_inj.1 h)
  rw [UInt8.le_iff_toNat_le] at h
  rw [UInt8.lt_iff_toNat_lt, UInt8.toNat_sub_of_le i 1 (UInt8.le_iff_toNat_le.2 (Nat.pos_of_ne_zero h0'))]
  simp [PSIGNAL_QUEUE_SIZE] at *
  omega

/-- The queue a read pops is bounded. -/
theorem Bounded.owner (hw : k.WellFormed) (h : Bounded k) (hs : k.spinning = false) :
    (k.procs (signal_owner k)).sigq.next_index ≤ PSIGNAL_QUEUE_SIZE := by
  have hl := hw.running hs
  unfold signal_owner
  split
  next hh => exact (h.parent _ hl hh).2
  next => exact h.live _ hl

/-- A read that pops does not pop an empty queue. -/
theorem owner_ne_zero (hC : pops_empty k .psignal_read = false) (h0 : k.current.sigq.next_index ≠ 0) :
    (k.procs (signal_owner k)).sigq.next_index ≠ 0 := by
  unfold signal_owner
  split
  next hh => simpa [pops_empty, hh, h0] using hC
  next => exact h0

/-- **One queue in one step.** -/
theorem Bounded.next_index (hw : k.WellFormed) (h : Bounded k) (hC : NoEmptyPop k (a, o))
    (hE : Effect k a o k') {r : ℕ} (hr : r ≤ k.frontier)
    (hb : (k.procs r).sigq.next_index ≤ PSIGNAL_QUEUE_SIZE) :
    (k'.procs r).sigq.next_index ≤ PSIGNAL_QUEUE_SIZE := by
  have hdeliver : ∀ {x dest dword p}, recipient k dest = some p →
      ((deliver (k.keyed x) p dword).procs r).sigq.next_index ≤ PSIGNAL_QUEUE_SIZE := by
    intro x dest dword p hp
    by_cases he : r = p
    · subst he
      simpa [deliver, Kernel.modify, SignalQueue.push, Kernel.keyed] using
        index_succ (recipient_accepts hp).room
    · simpa [deliver, Kernel.modify, he, Kernel.keyed] using hb
  cases hE with
  | quiet hq => rwa [hq.procs]
  | read hs =>
    rw [psignal_read_eq]
    split
    next =>
      by_cases he : r = signal_owner k
      · subst he
        simpa [Kernel.modify, SignalQueue.unlock] using hb
      · simpa [Kernel.modify, he] using hb
    next h0 =>
      by_cases he : r = signal_owner k
      · subst he
        simpa [Kernel.modify, SignalQueue.unlock, SignalQueue.pop] using
          UInt8.le_of_lt (index_pred (h.owner hw hs) (owner_ne_zero hC h0))
      · simpa [Kernel.modify, he] using hb
  | hook =>
    by_cases he : r = k.current_task
    · subst he
      simpa [psignal_hook, Kernel.modify] using hb
    · simpa [psignal_hook, Kernel.modify, he] using hb
  | queued _ hp => exact hdeliver hp
  | handled _ hp _ hs =>
    rw [Kernel.link_procs (Kernel.fresh_ne hs hr)]
    exact hdeliver hp
  | spawned _ hs => rwa [Kernel.link_procs (Kernel.fresh_ne hs hr)]
  | exited _ hs hrf =>
    rwa [Kernel.killed_procs (hw.linked.ring.prev_ne (hw.running hs) (hw.ne_base hrf))]
  | timer => rwa [irq0_isr_procs]

/-- **A step that keeps to the condition** keeps the bounds. -/
theorem Bounded.effect (hw : k.WellFormed) (h : Bounded k) (hC : NoEmptyPop k (a, o))
    (hE : Effect k a o k') : Bounded k' := by
  have hle := frontier_le hE
  have hold : ∀ p, k.Live p → (k'.procs p).sigq.next_index ≤ PSIGNAL_QUEUE_SIZE := fun p hp =>
    h.next_index hw hC hE (hw.le hp) (h.live p hp)
  have hnew : ∀ p, ¬k.Live p → k'.Live p → (k'.procs p).sigq.next_index ≤ PSIGNAL_QUEUE_SIZE := by
    intro p hn hl
    rcases created hw hE hn hl with hf | hh
    · rw [hf.sigq]
      simp [psignal_queue_init, PSIGNAL_QUEUE_SIZE]
    · rw [hh.sigq]
      exact hold _ hh.owner
  refine ⟨fun p hl => ?_, fun p hl hh => ?_⟩
  · by_cases hp : k.Live p
    · exact hold p hp
    · exact hnew p hp hl
  · by_cases hp : k.Live p
    · have hrole := hw.sameRole hE (hw.le hp)
      rw [hrole.isHandler] at hh
      rw [hrole.parent]
      obtain ⟨hf, hb⟩ := h.parent p hp hh
      exact ⟨Nat.le_trans hf hle, h.next_index hw hC hE hf hb⟩
    · rcases created hw hE hp hl with hf | hc
      · rw [hf.not_handler] at hh
        cases hh
      · exact ⟨Nat.le_trans (hw.le hc.owner) hle, hold _ hc.owner⟩

theorem Booted.bounded (h : Booted k) : Bounded k := by
  refine ⟨fun p hp => ?_, fun p hp hh => ?_⟩
  · rw [h.live_eq hp]
    show k.current.sigq.next_index ≤ _
    rw [h.next_index]
    decide
  · exact absurd hh (h.no_handler hp)

/-- What a send accesses has room. -/
theorem accessOk_of_ne_read (h : a ≠ .psignal_read) : AccessOk k a := by
  intro i hi
  unfold accesses at hi
  split at hi
  next => exact absurd rfl h
  next =>
    split at hi
    next =>
      obtain ⟨p, hp, rfl⟩ := Option.map_eq_some_iff.1 hi
      exact (recipient_accepts hp).room
    next => cases hi

/-- **What an action accesses** is in bounds exactly when no signal handler pops an empty
queue. -/
theorem Bounded.accessOk_iff (hw : k.WellFormed) (h : Bounded k) (he : Enabled k a) :
    AccessOk k a ↔ pops_empty k a = false := by
  by_cases ha : a = .psignal_read
  · subst ha
    have hb := h.owner hw (he.runs rfl)
    by_cases h0 : k.current.sigq.next_index = 0
    · simp [AccessOk, accesses, pops_empty, h0]
    · refine ⟨fun hok => ?_, fun hC i hi => ?_⟩
      · -- the index below an empty queue is 255
        by_contra hp
        simp only [pops_empty, Bool.not_eq_false, Bool.and_eq_true, beq_iff_eq] at hp
        have hi : accesses k .psignal_read = some (0 - 1) := by
          simp [accesses, h0, signal_owner, hp.1.1, hp.2]
        exact absurd (hok _ hi) (by decide)
      · simp only [accesses, h0, if_false, Option.some.injEq] at hi
        rw [← hi]
        exact index_pred hb (owner_ne_zero hC h0)
  · have hp : pops_empty k a = false := by
      unfold pops_empty
      split
      · exact absurd rfl ha
      · rfl
    simp [hp, accessOk_of_ne_read ha]

end Signals

theorem RunsTo.bounded {es : List (Action × UInt64)} {k : Kernel} (h : RunsTo NoEmptyPop es k) : Bounded k :=
  h.invariant (fun _ hb => hb.bounded) fun hw h hC hE => h.effect hw hC hE

/-- **In every run in which no signal handler pops an empty queue** the queues are in bounds,
and what the next action accesses is too unless it does that. -/
theorem queues_bounded_of_no_empty_pop {es : List (Action × UInt64)} {k : Kernel}
    (h : RunsTo NoEmptyPop es k) :
    QueuesBounded k ∧ ∀ a, Enabled k a → (AccessOk k a ↔ pops_empty k a = false) := by
  have hb := h.bounded
  exact ⟨hb.queuesBounded, fun a he => hb.accessOk_iff h.wellFormed he⟩

/-- The first process sends itself a signal, and the handler reads it. -/
theorem queues_bounded_handled : ∃ es k, RunsTo NoEmptyPop es k ∧ k.current.isHandler = true ∧
    QueuesBounded k := by
  obtain ⟨es, k, h, hn⟩ := traces_true NoEmptyPop (fun k => k.current.isHandler)
    [.psignal_hook 0x5000, .psignal_send 1 7, .timer quietTick, .psignal_read] (by decide +kernel)
  exact ⟨es, k, h, hn, (queues_bounded_of_no_empty_pop h).1⟩

/-- The handler reads a second time: `next_index` of its parent is 255. -/
theorem queues_not_bounded : ¬∀ k, Reachable k →
    QueuesBounded k ∧ ∀ a, Enabled k a → AccessOk k a := by
  obtain ⟨es, k, h, hn⟩ := traces_true Always
    (fun k => k.queue.any fun p => decide (PSIGNAL_QUEUE_SIZE < (k.procs p).sigq.next_index))
    [.psignal_hook 0x5000, .psignal_send 1 7, .timer quietTick, .psignal_read, .psignal_read]
    (by decide +kernel)
  intro hall
  obtain ⟨p, hp, hlt⟩ := List.any_eq_true.1 hn
  exact UInt8.not_le.2 (of_decide_eq_true hlt) ((hall k ⟨es, h⟩).1 p (.inl hp))

end Iridium
