import Iridium.Proc.Pids
import Iridium.Proc.Signals

/-!
# Who can be sent signals

A read unlocks a signal queue and makes room in it, so that the next signal is accepted. But
the queue it unlocks is that of the parent when the reader is a signal handler: the handler's own
queue is a copy made while the queue was locked, and nobody ever unlocks it. And the index of the
parent, which `psignal_read` takes down without a look at it, stays above the bound for long
once it has wrapped.

`accepted_after_read` says that nothing else is in the way.
-/

namespace Iridium

/-- `psignal_send` accepts the signal: it comes into a queue, and all that is left is the
callback. -/
def TakesSignal (k : Kernel) (dest : PID_T) (dword : UInt32) : Prop :=
  ∃ p, psignal_send k dest dword = do return (EXIT_SUCCESS, ← psignal_exec_callback (deliver k p dword) p)

/-- `psignal_send` answers `EXIT_SUCCESS`. -/
def SendSucceeds (k : Kernel) (dest : PID_T) (dword : UInt32) : Prop :=
  ∃ k', psignal_send k dest dword = .ok (EXIT_SUCCESS, k')

/-- **Right after the running process has read**, a signal to its PID is accepted, whoever
sends it. -/
def AcceptsAfterRead (k : Kernel) : Prop :=
  ∀ sender dword, SendSucceeds { (psignal_read k).2 with current_task := sender } k.current.pid dword

/-- **There is memory for a signal handler** of the process at `p`, if it has a callback: for a descriptor, an
address space and a stack. -/
def RoomForHandler (k : Kernel) (p : ℕ) : Prop :=
  (k.procs p).sigq.signal_callback ≠ 0 → ∃ r, spawn_memory k (k.procs p).sigq.signal_callback [] = .ok r

section Send

variable {k : Kernel} {dest : PID_T} {dword : UInt32}

theorem TakesSignal.success (h : TakesSignal k dest dword) {e : ERRNO_T} {k' : Kernel}
    (hs : psignal_send k dest dword = .ok (e, k')) : e = EXIT_SUCCESS := by
  obtain ⟨p, hp⟩ := h
  rw [hp] at hs
  obtain ⟨k₁, -, hs⟩ := bind_ok.1 hs
  exact (Prod.mk.inj (pure_ok.1 hs)).1.symm

/-- A signal is accepted exactly when the first process with the PID takes it. -/
theorem takesSignal_iff {l : List ℕ} (hl : k.Linked l) {p : ℕ}
    (hp : l.find? (fun p => (k.procs p).pid == dest) = some p) : TakesSignal k dest dword ↔ Accepts k p := by
  have hsend : psignal_send k dest dword = _ := psignal_send_found hl hp
  constructor
  · intro h
    by_contra ha
    by_cases hfull : (k.procs p).sigq.next_index ≥ PSIGNAL_QUEUE_SIZE
    · rw [if_pos hfull] at hsend
      exact absurd (h.success hsend) (by decide)
    · rw [if_neg hfull] at hsend
      by_cases hlock : (k.procs p).sigq.rwlock = 1
      · rw [if_pos hlock] at hsend
        exact absurd (h.success hsend) (by decide)
      · exact ha ⟨UInt8.not_le.1 hfull, hlock⟩
  · intro ha
    rw [if_neg (UInt8.not_le.2 ha.room), if_neg ha.unlocked] at hsend
    exact ⟨p, hsend⟩

/-- A state with the same memory and callback has room for a handler too. -/
theorem roomForHandler_congr {k' : Kernel} {p : ℕ} (hm : k'.mm = k.mm) (hr : k'.rflags = k.rflags)
    (hc : ∀ q, (k'.procs q).context = (k.procs q).context)
    (hs : (k'.procs p).sigq.signal_callback = (k.procs p).sigq.signal_callback) :
    RoomForHandler k' p ↔ RoomForHandler k p := by
  have hmem : ∀ rip path, spawn_memory k' rip path = spawn_memory k rip path := fun rip path => by
    simp only [spawn_memory, hm, hr, hc]
  rw [RoomForHandler, RoomForHandler, hs]
  simp only [hmem]

theorem roomForHandler_deliver {p : ℕ} : RoomForHandler (deliver k p dword) p ↔ RoomForHandler k p := by
  refine roomForHandler_congr rfl rfl (fun q => ?_) ?_
  · by_cases he : q = p
    · simp [deliver, Kernel.modify, he]
    · simp [deliver, Kernel.modify, he]
  · simp [deliver, Kernel.modify, SignalQueue.push]

theorem roomForHandler_read {p : ℕ} : RoomForHandler (psignal_read k).2 p ↔ RoomForHandler k p := by
  rw [psignal_read_eq]
  have hsame : ∀ f : SignalQueue → SignalQueue, (∀ q, (f q).signal_callback = q.signal_callback) →
      (RoomForHandler (k.modify (signal_owner k) fun q => { q with sigq := f q.sigq }) p ↔ RoomForHandler k p) := by
    intro f hf
    refine roomForHandler_congr rfl rfl (fun q => ?_) ?_
    · by_cases he : q = signal_owner k
      · simp [Kernel.modify, he]
      · simp [Kernel.modify, he]
    · by_cases he : p = signal_owner k
      · simp [Kernel.modify, he, hf]
      · simp [Kernel.modify, he]
  split
  · exact hsame SignalQueue.unlock fun _ => rfl
  · exact hsame (fun q => q.unlock.pop) fun _ => rfl

/-- **A callback returns** exactly when there is memory for the handler. -/
theorem psignal_exec_callback_returns {l : List ℕ} {p : ℕ} (hl : k.Linked l) (hk : k.mm.HeapOk) (hp : p ∈ l) :
    (∃ k', psignal_exec_callback k p = .ok k') ↔ RoomForHandler k p := by
  rw [psignal_exec_callback_eq hl hk hp]
  split
  next h0 => exact iff_of_true ⟨k, rfl⟩ fun hc => absurd h0 hc
  next h0 =>
    constructor
    · rintro ⟨k', h⟩ -
      obtain ⟨r, hr, -⟩ := bind_ok.1 h
      exact ⟨r, hr⟩
    · intro h
      obtain ⟨r, hr⟩ := h h0
      exact ⟨_, bind_ok.2 ⟨r, hr, rfl⟩⟩

/-- **A send succeeds** exactly when the first process with the PID takes the signal, and there is memory for its
handler. -/
theorem sendSucceeds_iff {l : List ℕ} (hl : k.Linked l) (hk : k.mm.HeapOk) {p : ℕ}
    (hp : l.find? (fun p => (k.procs p).pid == dest) = some p) :
    SendSucceeds k dest dword ↔ Accepts k p ∧ RoomForHandler k p := by
  have hmem := List.mem_of_find?_eq_some hp
  have hreturns : (∃ k', psignal_exec_callback (deliver k p dword) p = .ok k') ↔ RoomForHandler k p :=
    (psignal_exec_callback_returns (k := deliver k p dword) (hl.modify fun _ => ⟨rfl, rfl⟩) hk hmem).trans
      roomForHandler_deliver
  rw [← hreturns, SendSucceeds, psignal_send_found hl hp]
  constructor
  · rintro ⟨k', h⟩
    split at h
    next => exact absurd (Prod.mk.inj (pure_ok.1 h)).1 (by decide)
    next hroom =>
      split at h
      next => exact absurd (Prod.mk.inj (pure_ok.1 h)).1 (by decide)
      next hlock =>
        obtain ⟨k₁, h₁, -⟩ := bind_ok.1 h
        exact ⟨⟨UInt8.not_le.1 hroom, hlock⟩, k₁, h₁⟩
  · rintro ⟨ha, k₁, h₁⟩
    rw [if_neg (UInt8.not_le.2 ha.room), if_neg ha.unlocked]
    exact ⟨k₁, bind_ok.2 ⟨k₁, h₁, rfl⟩⟩

end Send

/-! ### The queues of signal handlers -/

/-- The queues of the signal handlers are locked, and so no signal handler is the parent of
another. -/
structure HandlersLocked (k : Kernel) : Prop where
  rwlock : ∀ p, k.Live p → (k.procs p).isHandler = true → (k.procs p).sigq.rwlock = 1
  parent : ∀ p, k.Live p → (k.procs p).isHandler = true →
    (k.procs p).parent ≤ k.frontier ∧ (k.procs (k.procs p).parent).isHandler = false

section Locked

variable {k k' : Kernel} {a : Action} {o : UInt64}

/-- The queue that a read unlocks is not that of a signal handler. -/
theorem HandlersLocked.owner (hw : k.WellFormed) (h : HandlersLocked k) (hs : k.spinning = false) :
    (k.procs (signal_owner k)).isHandler = false := by
  unfold signal_owner
  split
  next hh => exact (h.parent _ (hw.running hs) hh).2
  next hh => exact Bool.eq_false_iff.2 hh

theorem deliver_rwlock {x : UInt32} {p r : ℕ} {dword : UInt32} (h : (k.procs r).sigq.rwlock = 1) :
    ((deliver (k.keyed x) p dword).procs r).sigq.rwlock = 1 := by
  by_cases he : r = p
  · subst he
    simp [deliver, Kernel.modify, SignalQueue.push]
  · simpa [deliver, Kernel.modify, he, Kernel.keyed] using h

/-- A locked queue is unlocked by a read only. -/
theorem rwlock_effect (hw : k.WellFormed) (hE : Effect k a o k') {r : ℕ} (hr : r ≤ k.frontier)
    (ho : k.spinning = false → r ≠ signal_owner k) (h : (k.procs r).sigq.rwlock = 1) :
    (k'.procs r).sigq.rwlock = 1 := by
  cases hE with
  | quiet hq => rwa [hq.procs]
  | read hs =>
    rw [psignal_read_eq]
    split <;> simpa [Kernel.modify, ho hs] using h
  | hook =>
    by_cases he : r = k.current_task
    · subst he
      simpa [psignal_hook, Kernel.modify] using h
    · simpa [psignal_hook, Kernel.modify, he] using h
  | queued => exact deliver_rwlock h
  | handled _ _ _ hs =>
    rw [Kernel.link_procs (Kernel.fresh_ne hs hr)]
    exact deliver_rwlock h
  | spawned _ hs => rwa [Kernel.link_procs (Kernel.fresh_ne hs hr)]
  | exited _ hs hrf =>
    rwa [Kernel.killed_procs (hw.linked.ring.prev_ne (hw.running hs) (hw.ne_base hrf))]
  | timer => rwa [irq0_isr_procs]

/-- A new signal handler has a copy of a queue that was locked before it was copied, and its
parent is a process that took a signal. -/
theorem created_handler (hw : k.WellFormed) (hE : Effect k a o k') {p : ℕ} (hn : ¬k.Live p) (hl : k'.Live p)
    (hh : (k'.procs p).isHandler = true) :
    (k'.procs p).sigq.rwlock = 1 ∧ k.Live (k'.procs p).parent ∧ Accepts k (k'.procs p).parent := by
  cases arrives hw hE hn hl with
  | loaded =>
    rw [Kernel.link_procs_self] at hh
    exact absurd hh (Bool.eq_false_iff.1 spawned_isHandler)
  | @handles x _ dword owner _ _ hr _ hs =>
    rw [Kernel.link_procs_self]
    refine ⟨?_, recipient_mem hr, recipient_accepts hr⟩
    show ((deliver (k.keyed x) owner dword).procs owner).sigq.rwlock = 1
    simp [deliver, Kernel.modify, SignalQueue.push]

/-- **Every step** keeps the queues of the signal handlers locked. -/
theorem HandlersLocked.effect (hw : k.WellFormed) (h : HandlersLocked k) (hE : Effect k a o k') :
    HandlersLocked k' := by
  have hle := frontier_le hE
  refine ⟨fun p hp hh => ?_, fun p hp hh => ?_⟩
  · by_cases hl : k.Live p
    · have hrole := hw.sameRole hE (hw.le hl)
      rw [hrole.isHandler] at hh
      refine rwlock_effect hw hE (hw.le hl) (fun hs he => ?_) (h.rwlock p hl hh)
      rw [he, h.owner hw hs] at hh
      cases hh
    · exact (created_handler hw hE hl hp hh).1
  · by_cases hl : k.Live p
    · have hrole := hw.sameRole hE (hw.le hl)
      rw [hrole.isHandler] at hh
      rw [hrole.parent]
      obtain ⟨hb, hf⟩ := h.parent p hl hh
      exact ⟨hb.trans hle, (hw.sameRole hE hb).isHandler.trans hf⟩
    · obtain ⟨-, hlive, hacc⟩ := created_handler hw hE hl hp hh
      have hb := hw.le hlive
      refine ⟨hb.trans hle, (hw.sameRole hE hb).isHandler.trans ?_⟩
      -- a signal handler takes no signal
      by_contra hc
      exact hacc.unlocked (h.rwlock _ hlive (Bool.not_eq_false _ ▸ hc))

theorem Booted.handlersLocked (h : Booted k) : HandlersLocked k :=
  ⟨fun _ hp hh => absurd hh (h.no_handler hp), fun _ hp hh => absurd hh (h.no_handler hp)⟩

theorem index_le_of_pred {i : UInt8} (h : i - 1 < PSIGNAL_QUEUE_SIZE) : i ≤ PSIGNAL_QUEUE_SIZE := by
  have h' := i.toNat_lt
  rw [UInt8.lt_iff_toNat_lt, UInt8.toNat_sub] at h
  rw [UInt8.le_iff_toNat_le]
  simp [PSIGNAL_QUEUE_SIZE] at *
  omega

/-- **After a read** the queue of the reader takes a signal exactly when the reader is no
signal handler and the index was in bounds. -/
theorem accepts_read_iff (hw : k.WellFormed) (h : HandlersLocked k) (hs : k.spinning = false) :
    Accepts (psignal_read k).2 k.current_task ↔
      k.current.isHandler = false ∧ k.current.sigq.next_index ≤ PSIGNAL_QUEUE_SIZE := by
  cases hh : k.current.isHandler with
  | true =>
    have hlock : ((psignal_read k).2.procs k.current_task).sigq.rwlock = 1 := by
      refine rwlock_effect hw (.read hs) hw.current_le (fun _ he => ?_) (h.rwlock _ (hw.running hs) hh)
      have := h.owner hw hs
      rw [← he] at this
      exact absurd hh (Bool.eq_false_iff.1 this)
    exact ⟨fun ha => absurd hlock ha.unlocked, fun hf => absurd hf.1 (by decide)⟩
  | false =>
    have howner : signal_owner k = k.current_task := by simp [signal_owner, hh]
    rw [psignal_read_eq, howner]
    by_cases h0 : k.current.sigq.next_index = 0
    · have hle : k.current.sigq.next_index ≤ PSIGNAL_QUEUE_SIZE := by
        rw [h0]
        decide
      refine ⟨fun _ => ⟨rfl, hle⟩, fun _ => ⟨?_, ?_⟩⟩
      · rw [if_pos h0]
        have hi : ((k.modify k.current_task fun q => { q with sigq := q.sigq.unlock }).procs
            k.current_task).sigq.next_index = k.current.sigq.next_index := by
          simp [Kernel.modify, SignalQueue.unlock, Kernel.current]
        show _ < _
        rw [hi, h0]
        decide
      · rw [if_pos h0]
        simp [Kernel.modify, SignalQueue.unlock]
    · rw [if_neg h0]
      have hi : (((k.modify k.current_task fun q => { q with sigq := q.sigq.unlock.pop }).procs
          k.current_task).sigq).next_index = k.current.sigq.next_index - 1 := by
        simp [Kernel.modify, SignalQueue.unlock, SignalQueue.pop, Kernel.current]
      refine ⟨fun ha => ⟨rfl, ?_⟩, fun hle => ⟨?_, ?_⟩⟩
      · exact index_le_of_pred (hi ▸ ha.room)
      · exact hi ▸ index_pred hle.2 h0
      · simp [Kernel.modify, SignalQueue.unlock, SignalQueue.pop]

end Locked

/-! ### Results -/

/-- The PIDs are kept in order, and no signal handler takes a signal out of an empty queue. -/
structure ReadsInOrder (k : Kernel) (e : Action × UInt64) : Prop where
  pids : PidsInOrder k e
  pops : NoEmptyPop k e

instance (k : Kernel) (e : Action × UInt64) : Decidable (ReadsInOrder k e) :=
  decidable_of_iff (PidsInOrder k e ∧ NoEmptyPop k e) ⟨fun h => ⟨h.1, h.2⟩, fun h => ⟨h.pids, h.pops⟩⟩

/-- **A signal to a process that has just read** is accepted exactly when the process is no
signal handler and there is memory for one, in every run that keeps the PIDs in order and pops no empty queue. -/
theorem accepted_after_read {es : List (Action × UInt64)} {k : Kernel} (h : RunsTo ReadsInOrder es k)
    (hs : k.spinning = false) :
    AcceptsAfterRead k ↔ k.current.isHandler = false ∧ RoomForHandler k k.current_task := by
  have hw := h.wellFormed
  have hlive := hw.running hs
  have hpids : PidsOk k := (h.mono fun _ _ hC => hC.pids).pidsAscend.ok hw
  have hbound : Bounded k := (h.mono fun _ _ hC => hC.pops).bounded
  have hlock : HandlersLocked k :=
    h.invariant (fun _ hb => hb.handlersLocked) fun hw h _ hE => h.effect hw hE
  have hindex : k.current.sigq.next_index ≤ PSIGNAL_QUEUE_SIZE := hbound.live _ hlive
  have hread := (accepts_read_iff hw hlock hs).trans (and_iff_left hindex)
  have hl := Kernel.sameLinks_read k
  have key : ∀ sender dword,
      SendSucceeds { (psignal_read k).2 with current_task := sender } k.current.pid dword ↔
        k.current.isHandler = false ∧ RoomForHandler k k.current_task := by
    intro sender dword
    rw [← hread, ← roomForHandler_read]
    have hlinked : Kernel.Linked { (psignal_read k).2 with current_task := sender } k.queue :=
      hw.linked.congr hl.queue_base hl.queue_head (Nat.le_of_eq hl.frontier.symm)
        fun p _ => ⟨hl.next p, hl.prev p⟩
    have hheap : (psignal_read k).2.mm.HeapOk :=
      ⟨by rw [hl.heap]; exact hw.heap.used, by rw [hl.heap]; exact hw.heap.bytes_allocated⟩
    have hsole : SolePid (psignal_read k).2 k.queue k.current_task := fun r hr he => by
      rw [hl.pid, hl.pid] at he
      exact hpids.distinct r hr k.current_task hlive he
    have hfind := hsole.find hlive
    rw [hl.pid k.current_task] at hfind
    exact (sendSucceeds_iff hlinked hheap hfind).trans
      (and_congr ⟨fun ha => ⟨ha.room, ha.unlocked⟩, fun ha => ⟨ha.room, ha.unlocked⟩⟩ Iff.rfl)
  exact ⟨fun hall => (key 0 0).1 (hall 0 0), fun hh sender dword => (key sender dword).2 hh⟩

/-- The first process is sent a signal, its handler reads it, and the first process reads. -/
theorem accepted_after_read_handled : ∃ es k, RunsTo ReadsInOrder es k ∧
    k.current_task = k.queue_base ∧ k.queue.length = 2 ∧ AcceptsAfterRead k := by
  obtain ⟨es, k, h, hn⟩ := traces_true ReadsInOrder
    (fun k => !k.spinning && !k.current.isHandler && decide (k.current_task = k.queue_base) &&
      decide (k.queue.length = 2) && answers (spawn_memory k k.current.sigq.signal_callback []) fun _ => true)
    [.psignal_hook 0x5000, .psignal_send 1 7, .timer quietTick, .psignal_read, .timer quietTick]
    (by decide +kernel)
  simp only [Bool.and_eq_true, Bool.not_eq_true', decide_eq_true_eq] at hn
  obtain ⟨⟨⟨⟨hs, hh⟩, hb⟩, hq⟩, hm⟩ := hn
  obtain ⟨r, hr, -⟩ := answers_iff.1 hm
  exact ⟨es, k, h, hb, hq, (accepted_after_read h hs).2 ⟨hh, fun _ => ⟨r, hr⟩⟩⟩

/-- The handler reads twice. After that the first process is refused signals however often it
reads; here, after its first read. -/
theorem not_accepted_after_read : ¬∀ k, Reachable k → k.spinning = false → AcceptsAfterRead k := by
  obtain ⟨es, k, h, hn⟩ := traces_true Always
    (fun k => !k.spinning && !k.current.isHandler &&
      answers (psignal_send (psignal_read k).2 k.current.pid 0) fun r => r.1 == -EREJECTED)
    [.psignal_hook 0x5000, .psignal_send 1 7, .timer quietTick, .psignal_read, .psignal_read,
      .timer quietTick] (by decide +kernel)
  simp only [Bool.and_eq_true, Bool.not_eq_true'] at hn
  obtain ⟨⟨hs, -⟩, hn⟩ := hn
  intro hall
  obtain ⟨k₁, ht⟩ := hall k ⟨es, h⟩ hs (psignal_read k).2.current_task 0
  obtain ⟨⟨e, k'⟩, he, hn⟩ := answers_iff.1 hn
  obtain ⟨rfl, -⟩ := Prod.mk.inj (Except.ok.inj (he.symm.trans ht))
  replace hn : (EXIT_SUCCESS == -EREJECTED) = true := hn
  exact absurd hn (by decide)

end Iridium
