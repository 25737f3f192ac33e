import Iridium.Proc.Delivery
import Iridium.Proc.Keystroke
import Iridium.Proc.Parents
import Mathlib.Order.BooleanAlgebra.Set

/-!
# Signals and their handlers

A process with a callback is sent signals as any other is, and the kernel spawns a signal handler for each. The
handler has a copy of the queue, and reads the queue of its parent; so may the parent itself. `HookMail` says
once what an action does to the queue of a process and to its handlers.
-/

namespace Iridium

/-- The signal handlers of the process at `r`. -/
def Kernel.handlers (k : Kernel) (r : ℕ) : Set ℕ :=
  {p | k.Live p ∧ (k.procs p).isHandler = true ∧ (k.procs p).parent = r}

/-- The action leaves the signals of the process at `r` and its handlers alone. -/
structure NoMail (k : Kernel) (r : ℕ) (a : Action) (o : UInt64) : Prop where
  accepted : accepted r (k, a, o) = none
  read : a = .psignal_read → signal_owner k ≠ r
  hook : ∀ callback, a = .psignal_hook callback → k.current_task ≠ r
  exit : a.exits = true → k.current_task ∈ k.handlers r → refused k k.current.pid = true

/-- **What an action does to the queue of the process at `r`, and to its handlers.** -/
inductive HookMail (k : Kernel) (r : ℕ) : Action → UInt64 → SignalQueue → Set ℕ → Prop where
  /-- Nothing. -/
  | same {a : Action} {o : UInt64} : NoMail k r a o → HookMail k r a o (k.procs r).sigq (k.handlers r)
  /-- The process installs a callback. -/
  | hook {callback o : UInt64} : k.current_task = r → HookMail k r (.psignal_hook callback) o
      { (k.procs r).sigq with signal_callback := callback } (k.handlers r)
  /-- A signal is queued. -/
  | queued {a : Action} {o : UInt64} {dword : UInt32} :
      accepted r (k, a, o) = some (sender_pid k, dword) → Accepts k r → (k.procs r).sigq.signal_callback = 0 →
      HookMail k r a o ((k.procs r).sigq.push (word (sender_pid k, dword))) (k.handlers r)
  /-- A signal is queued, and a handler is spawned. -/
  | handled {a : Action} {o : UInt64} {dword : UInt32} {h : ℕ} :
      accepted r (k, a, o) = some (sender_pid k, dword) → Accepts k r → (k.procs r).sigq.signal_callback ≠ 0 →
      k.frontier < h → HookMail k r a o ((k.procs r).sigq.push (word (sender_pid k, dword))) (insert h (k.handlers r))
  /-- The process reads an empty queue. -/
  | empty {o : UInt64} : signal_owner k = r → k.current.sigq.next_index = 0 → o = 0 →
      HookMail k r .psignal_read o (k.procs r).sigq.unlock (k.handlers r)
  /-- The process or a handler takes a word out of the queue. -/
  | pop {o : UInt64} : signal_owner k = r → k.current.sigq.next_index ≠ 0 →
      o = taken ((k.procs r).sigq.queue ((k.procs r).sigq.next_index - 1)) →
      HookMail k r .psignal_read o (k.procs r).sigq.unlock.pop (k.handlers r)
  /-- A handler is killed. -/
  | exited {a : Action} {o : UInt64} : a.exits = true → refused k k.current.pid = false →
      k.current_task ∈ k.handlers r →
      HookMail k r a o (k.procs r).sigq (k.handlers r \ {k.current_task})

section Hooked

variable {k k' : Kernel} {a : Action} {o : UInt64} {r : ℕ}

/-- A call of `psignal_send` in a step returns. -/
theorem sends_returns {k₁ : Kernel} {dest : PID_T} {dword : UInt32} (hS : Step k (a, o) k')
    (hs : a.sends k = some (k₁, dest, dword)) : ∃ r, psignal_send k₁ dest dword = .ok r := by
  cases a with
  | psignal_send d w =>
    obtain ⟨rfl, rfl, rfl⟩ : k = k₁ ∧ d = dest ∧ w = dword := by simpa [Action.sends] using hs
    obtain ⟨q, hq, -⟩ := bind_ok.1 hS.2
    exact ⟨q, hq⟩
  | keyboard port beyond =>
    simp only [Action.sends] at hs
    split at hs
    next hr =>
      obtain ⟨rfl, rfl, rfl⟩ : _ = k₁ ∧ _ = dest ∧ _ = dword := by simpa using hs
      obtain ⟨k₂, h₂, -⟩ := bind_ok.1 hS.2
      rw [irq1_isr_eq, if_pos hr] at h₂
      obtain ⟨q, hq, -⟩ := bind_ok.1 h₂
      exact ⟨q, hq⟩
    next => cases hs
  | _ => cases hs

/-- A signal that finds a process which takes it is accepted. -/
theorem accepted_of_recipient {x : UInt32} {dest : PID_T} {dword : UInt32} (hw : k.WellFormed)
    (hS : Step k (a, o) k') (hs : a.sends k = some (k.keyed x, dest, dword)) (hr : recipient k dest = some r) :
    accepted r (k, a, o) = some (sender_pid k, dword) := by
  obtain ⟨⟨e, k₂⟩, hcall⟩ := sends_returns hS hs
  have hfind := (Option.filter_eq_some_iff.1 hr).1
  have hacc := recipient_accepts hr
  have hpid : (k.procs r).pid = dest := by simpa using List.find?_some hfind
  have hte : TakesSignal (k.keyed x) dest dword :=
    (takesSignal_iff (hw.linked_keyed x) hfind).2 ⟨hacc.room, hacc.unlocked⟩
  obtain rfl := hte.success hcall
  exact accepted_of_success hs hcall (recipient_mem hr) hpid.symm

/-- A signal that comes to another process, when `r` is the first with its PID. -/
theorem accepted_elsewhere {k₁ : Kernel} {dest : PID_T} {dword : UInt32} {p : ℕ}
    (hf : k.Live r → k.queue.find? (fun p => (k.procs p).pid == (k.procs r).pid) = some r)
    (hs : a.sends k = some (k₁, dest, dword)) (hp : recipient k dest = some p) (hpr : p ≠ r) :
    accepted r (k, a, o) = none := by
  unfold accepted
  dsimp only
  rw [hs]
  dsimp only
  rw [if_neg]
  rintro ⟨hl, rfl⟩
  have hfind := (Option.filter_eq_some_iff.1 hp).1
  rw [hf hl] at hfind
  exact hpr (Option.some.inj hfind).symm

/-- An action that sends neither reads, nor hooks, nor exits. -/
theorem NoMail.of_sends {k₁ : Kernel} {dest : PID_T} {dword : UInt32} (hs : a.sends k = some (k₁, dest, dword))
    (ha : Iridium.accepted r (k, a, o) = none) : NoMail k r a o := by
  refine ⟨ha, ?_, ?_, fun hx => ?_⟩
  · rintro rfl
    cases hs
  · rintro _ rfl
    cases hs
  · have hnone : a.sends k = none := by cases a <;> first | rfl | cases hx
    rw [hnone] at hs
    cases hs

/-- The handlers of `r` are those there were, and those among the new processes. -/
theorem mem_handlers {p : ℕ} (hr : k.Live p → (k.procs p).SameRole (k'.procs p)) (hp : k'.Live p ↔ k.Live p) :
    p ∈ k'.handlers r ↔ p ∈ k.handlers r := by
  constructor
  · rintro ⟨hl, hh, hpar⟩
    have hl := hp.1 hl
    exact ⟨hl, (hr hl).isHandler ▸ hh, (hr hl).parent ▸ hpar⟩
  · rintro ⟨hl, hh, hpar⟩
    exact ⟨hp.2 hl, (hr hl).isHandler.trans hh, (hr hl).parent.trans hpar⟩

/-- The handlers after an action that makes nobody and kills nobody. -/
theorem Kernel.WellFormed.handlers_same (hw : k.WellFormed) (hE : Effect k a o k') (hq : k.SameLinks k') :
    k'.handlers r = k.handlers r :=
  Set.ext fun _ => mem_handlers (fun hp => hw.sameRole hE (hw.le hp)) hq.live

/-- The handlers after an action that makes one process. -/
theorem Kernel.WellFormed.handlers_new (hw : k.WellFormed) (hE : Effect k a o k') {h : ℕ} (hn : ¬k.Live h)
    (hl : ∀ p, k'.Live p ↔ k.Live p ∨ p = h) : k'.handlers r =
      {p | p ∈ k.handlers r ∨ p = h ∧ (k'.procs h).isHandler = true ∧ (k'.procs h).parent = r} := by
  ext p
  by_cases he : p = h
  · subst he
    constructor
    · rintro ⟨-, hh, hpar⟩
      exact .inr ⟨rfl, hh, hpar⟩
    · rintro (⟨hp, -⟩ | ⟨-, hh, hpar⟩)
      · exact absurd hp hn
      · exact ⟨(hl p).2 (.inr rfl), hh, hpar⟩
  · have hlive : k'.Live p ↔ k.Live p := (hl p).trans (or_iff_left he)
    rw [mem_handlers (fun hp => hw.sameRole hE (hw.le hp)) hlive]
    exact ⟨.inl, fun hp => hp.resolve_right fun hh => he hh.1⟩

/-- **Nobody touches the queue of a handler**, but for its callback. -/
theorem handler_index (hw : k.WellFormed) (h : HandlersLocked k) (hE : Effect k a o k') {p : ℕ} (hp : k.Live p)
    (hh : (k.procs p).isHandler = true) : (k'.procs p).sigq.next_index = (k.procs p).sigq.next_index := by
  have hr := hw.le hp
  have hdeliver : ∀ {x dest dword q}, recipient k dest = some q →
      ((deliver (k.keyed x) q dword).procs p).sigq = (k.procs p).sigq := by
    intro x dest dword q hq
    refine deliver_sigq_of_ne fun he => ?_
    exact (recipient_accepts hq).unlocked (he ▸ h.rwlock p hp hh)
  cases hE with
  | quiet hq => rw [hq.procs]
  | read hs =>
    have hne : p ≠ signal_owner k := fun he => by
      rw [he, h.owner hw hs] at hh
      cases hh
    rw [psignal_read_eq]
    split <;> simp [Kernel.modify, hne]
  | hook =>
    by_cases he : p = k.current_task
    · subst he
      simp [psignal_hook, Kernel.modify]
    · simp [psignal_hook, Kernel.modify, he]
  | queued _ hq => rw [hdeliver hq]
  | handled _ hq _ hs => rw [Kernel.link_procs (Kernel.fresh_ne hs hr), hdeliver hq]
  | spawned _ hs => rw [Kernel.link_procs (Kernel.fresh_ne hs hr)]
  | exited _ hs hrf => rw [Kernel.killed_procs (hw.linked.ring.prev_ne (hw.running hs) (hw.ne_base hrf))]
  | timer => rw [irq0_isr_procs]

/-- The first process stays the first. -/
theorem queue_base_effect (hE : Effect k a o k') : k'.queue_base = k.queue_base := by
  cases hE with
  | quiet hq => exact hq.queue_base
  | read => exact (Kernel.sameLinks_read k).queue_base
  | exited =>
    unfold killed
    rw [Kernel.unlink_eq]
    rfl
  | timer => exact (Kernel.sameLinks_timer k _).queue_base
  | hook | queued | handled | spawned => rfl

/-- **One action, and the signals of `r`.** -/
theorem hookMail (hw : k.WellFormed) (hr : r ≤ k.frontier) (hh : (k.procs r).isHandler = false)
    (hf : k.Live r → k.queue.find? (fun p => (k.procs p).pid == (k.procs r).pid) = some r)
    (hS : Step k (a, o) k') : HookMail k r a o (k'.procs r).sigq (k'.handlers r) := by
  have hE := hS.effect hw
  have hE₀ := hE
  cases hE with
  | quiet hq hi =>
    rw [hw.handlers_same hE₀ hq.sameLinks, hq.procs]
    refine .same ⟨?_, fun ha => ?_, fun _ ha => ?_, fun ha _ => hi.exits ha⟩
    · cases hs : a.sends k with
      | none => exact accepted_eq_none (by simp [sends_to, hs])
      | some c =>
        obtain ⟨-, e, k₂, hcall, he⟩ := hi.sends hs
        exact accepted_of_error hs hcall he
    · have := hi.plain
      rw [ha] at this
      cases this
    · have := hi.plain
      rw [ha] at this
      cases this
  | read hs =>
    rw [hw.handlers_same hE₀ (Kernel.sameLinks_read k)]
    by_cases ho : signal_owner k = r
    · rw [psignal_read_eq, ho]
      split
      next h0 => simpa [Kernel.modify] using HookMail.empty ho h0 rfl
      next h0 =>
        have hread : signal_read k = taken ((k.procs r).sigq.queue ((k.procs r).sigq.next_index - 1)) := by
          unfold signal_read
          rw [ho]
          rfl
        simpa [Kernel.modify] using HookMail.pop ho h0 hread
    · have hsig : ((psignal_read k).2.procs r).sigq = (k.procs r).sigq := by
        rw [psignal_read_eq]
        split <;> simp [Kernel.modify, Ne.symm ho]
      rw [hsig]
      exact .same ⟨accepted_eq_none rfl, fun _ => ho, fun _ h => (by cases h), fun h => by cases h⟩
  | @hook callback hs =>
    rw [hw.handlers_same hE₀ (Kernel.sameLinks_hook k _)]
    by_cases hc : k.current_task = r
    · have hsig : ((psignal_hook k callback).procs r).sigq =
          { (k.procs r).sigq with signal_callback := callback } := by
        simp [psignal_hook, Kernel.modify, hc]
      rw [hsig]
      exact .hook hc
    · have hsig : ((psignal_hook k callback).procs r).sigq = (k.procs r).sigq := by
        simp [psignal_hook, Kernel.modify, Function.update_of_ne (Ne.symm hc)]
      rw [hsig]
      exact .same ⟨accepted_eq_none rfl, fun h => (by cases h), fun _ _ => hc, fun h => by cases h⟩
  | @queued _ _ x dest dword p hsend hp hc hcall =>
    rw [hw.handlers_same hE₀ (Kernel.sameLinks_deliver k _ _ _)]
    by_cases hpr : p = r
    · subst hpr
      rw [deliver_sigq_self]
      exact .queued (accepted_of_recipient hw hS hsend hp) (recipient_accepts hp) hc
    · rw [deliver_sigq_of_ne hpr]
      exact .same (.of_sends hsend (accepted_elsewhere hf hsend hp hpr))
  | @handled _ _ x dest dword p h ctx mm hsend hp hc hs =>
    rw [Kernel.link_procs (Kernel.fresh_ne hs hr)]
    have hlive : ∀ q, (Kernel.link (deliver (k.keyed x) p dword) h
        (spawned_handler (deliver (k.keyed x) p dword) h p ctx) mm).Live q ↔ k.Live q ∨ q = h := fun q => by
      rw [(hw.deliver x p dword).live_link hs rfl rfl, (Kernel.sameLinks_deliver k x p dword).live]
    have hn : ¬k.Live h := fun hm => Kernel.fresh_ne hs (hw.le hm) rfl
    have hnew := hw.handlers_new (r := r) hE₀ hn hlive
    simp only [Kernel.link_procs_self, spawned_handler_isHandler, true_and] at hnew
    by_cases hpr : p = r
    · subst hpr
      have hins : _ = insert h (k.handlers p) := hnew.trans (Set.ext fun q => by
        simp [spawned_handler, make_handler, or_comm])
      rw [deliver_sigq_self, hins]
      exact .handled (accepted_of_recipient hw hS hsend hp) (recipient_accepts hp) hc hs.fresh
    · have hsame : _ = k.handlers r := hnew.trans (Set.ext fun q => by
        simp [spawned_handler, make_handler, hpr])
      rw [deliver_sigq_of_ne hpr, hsame]
      exact .same (.of_sends hsend (accepted_elsewhere hf hsend hp hpr))
  | @spawned _ _ _ h _ _ hd hs =>
    have hn : ¬k.Live h := fun hm => Kernel.fresh_ne hs (hw.le hm) rfl
    have hnew := hw.handlers_new (r := r) hE₀ hn fun q => hw.live_link hs rfl rfl
    have hsame : _ = k.handlers r := hnew.trans (Set.ext fun q => by simp [spawned_isHandler])
    rw [Kernel.link_procs (Kernel.fresh_ne hs hr), hsame]
    exact .same ⟨accepted_eq_none rfl, fun h => (by cases h), fun _ h => (by cases h), fun h => by cases h⟩
  | @exited _ _ pmm ha hs hrf hu =>
    have hne := hw.linked.ring.prev_ne (hw.running hs) (hw.ne_base hrf)
    have hlive : ∀ q, (killed k k.current_task pmm).Live q ↔ q ≠ k.current_task ∧ k.Live q := fun q =>
      hw.live_killed (hw.running hs) hrf hu
    have hnew : (killed k k.current_task pmm).handlers r = k.handlers r \ {k.current_task} := by
      ext q
      by_cases he : q = k.current_task
      · exact iff_of_false (fun hq => ((hlive q).1 hq.1).1 he) fun hq => hq.2 he
      · rw [mem_handlers (fun hq => hw.sameRole hE₀ (hw.le hq)) ((hlive q).trans (and_iff_right he))]
        exact (and_iff_left he).symm
    rw [Kernel.killed_procs hne]
    by_cases hc : k.current_task ∈ k.handlers r
    · rw [hnew]
      exact .exited ha hrf hc
    · rw [hnew, Set.sdiff_singleton_eq_self hc]
      refine .same ⟨?_, ?_, ?_, fun _ hc' => absurd hc' hc⟩
      · exact accepted_eq_none (by cases a <;> first | rfl | cases ha)
      · rintro rfl
        cases ha
      · rintro _ rfl
        cases ha
  | timer =>
    rw [hw.handlers_same hE₀ (Kernel.sameLinks_timer k _), irq0_isr_procs]
    exact .same ⟨accepted_eq_none rfl, fun h => (by cases h), fun _ h => (by cases h), fun h => by cases h⟩

end Hooked

/-! ### At most one signal waits -/

/-- No signal waits in an open queue, or one in a locked one. -/
inductive SignalQueue.Tidy (q : SignalQueue) : Prop where
  | opened : q.next_index = 0 → q.rwlock = 0 → q.Tidy
  | locked : q.next_index = 1 → q.rwlock = 1 → q.Tidy

/-- What `psignal_send` should answer: whether somebody has the PID, and whether a signal waits there. -/
def send_answer (k : Kernel) (dest : PID_T) : ERRNO_T :=
  match k.queue.find? fun p => (k.procs p).pid == dest with
  | none => -EXIT_FAILURE
  | some p => if (k.procs p).sigq.next_index = 0 then EXIT_SUCCESS else -EBUSY

/-- **At most one signal waits** in any queue: for a process its next one, for a signal handler, whose queue
nobody reads, the one that it was spawned for. So a send is refused when one waits and not otherwise, and no
queue is ever full. -/
structure OneWaits (k : Kernel) : Prop where
  queues : ∀ p, Used k p → (k.procs p).sigq.Tidy
  handlers : ∀ p, k.Live p → (k.procs p).isHandler = true → (k.procs p).sigq.next_index = 1
  answers : ∀ dest dword e k', psignal_send k dest dword = .ok (e, k') → e = send_answer k dest
  room : ∀ dest dword k', psignal_send k dest dword ≠ .ok (-EREJECTED, k')

/-- The queues of the live processes and of the parents of handlers are tidy; those of handlers are locked. -/
structure Kernel.Tidy (k : Kernel) : Prop where
  locked : HandlersLocked k
  live : ∀ p, k.Live p → (k.procs p).sigq.Tidy
  parent : ∀ h, k.Live h → (k.procs h).isHandler = true → (k.procs (k.procs h).parent).sigq.Tidy

section Tidy

variable {k k' : Kernel} {a : Action} {o : UInt64} {r : ℕ} {q : SignalQueue}

theorem SignalQueue.Tidy.index_iff (h : q.Tidy) : q.next_index = 0 ↔ q.rwlock ≠ 1 := by
  cases h with
  | opened hi hl => exact iff_of_true hi (by rw [hl]; decide)
  | locked hi hl => exact iff_of_false (by rw [hi]; decide) (not_not.2 hl)

theorem SignalQueue.Tidy.congr {q' : SignalQueue} (h : q.Tidy) (hi : q'.next_index = q.next_index)
    (hl : q'.rwlock = q.rwlock) : q'.Tidy := by
  cases h with
  | opened h₀ h₁ => exact .opened (hi.trans h₀) (hl.trans h₁)
  | locked h₀ h₁ => exact .locked (hi.trans h₀) (hl.trans h₁)

theorem SignalQueue.Tidy.push (h : q.Tidy) (hl : q.rwlock ≠ 1) (w : UInt64) : (q.push w).Tidy := by
  refine .locked ?_ rfl
  show q.next_index + 1 = 1
  rw [h.index_iff.2 hl]
  rfl

theorem SignalQueue.Tidy.pop (h : q.Tidy) (hi : q.next_index ≠ 0) : q.unlock.pop.Tidy := by
  cases h with
  | opened h0 => exact absurd h0 hi
  | locked h1 =>
    refine .opened ?_ rfl
    show q.next_index - 1 = 0
    rw [h1]
    rfl

theorem Kernel.Tidy.used (h : k.Tidy) {p : ℕ} (hp : Used k p) : (k.procs p).sigq.Tidy := by
  rcases hp with hp | ⟨c, hc, hh, rfl⟩
  · exact h.live p hp
  · exact h.parent c hc hh

/-- The queue of a handler has the signal that the handler was spawned for. -/
theorem Kernel.Tidy.handler (h : k.Tidy) {p : ℕ} (hp : k.Live p) (hh : (k.procs p).isHandler = true) :
    (k.procs p).sigq.next_index = 1 := by
  have hl := h.locked.rwlock p hp hh
  cases h.live p hp with
  | opened _ h0 =>
    rw [h0] at hl
    cases hl
  | locked hi => exact hi

/-- Who reads with nothing in its own queue is no handler. -/
theorem Kernel.Tidy.reader (hw : k.WellFormed) (h : k.Tidy) (hs : k.spinning = false)
    (h0 : k.current.sigq.next_index = 0) : signal_owner k = k.current_task := by
  unfold signal_owner
  split
  next hh =>
    have h1 := h.handler (hw.running hs) hh
    rw [show (k.procs k.current_task).sigq.next_index = 0 from h0] at h1
    cases h1
  next => rfl

/-- **One queue in one step.** -/
theorem Kernel.Tidy.queue (hw : k.WellFormed) (h : k.Tidy) (hC : NoEmptyPop k (a, o)) (hE : Effect k a o k')
    (hr : r ≤ k.frontier) (ht : (k.procs r).sigq.Tidy) : (k'.procs r).sigq.Tidy := by
  have hdeliver : ∀ {x dest dword p}, recipient k dest = some p →
      ((deliver (k.keyed x) p dword).procs r).sigq.Tidy := by
    intro x dest dword p hp
    by_cases he : p = r
    · subst he
      rw [deliver_sigq_self]
      exact ht.push (recipient_accepts hp).unlocked _
    · rwa [deliver_sigq_of_ne he]
  cases hE with
  | quiet hq => rwa [hq.procs]
  | read hs =>
    rw [psignal_read_eq]
    split
    next h0 =>
      by_cases he : r = signal_owner k
      · subst he
        have hi : (k.procs (signal_owner k)).sigq.next_index = 0 := by
          rw [h.reader hw hs h0]
          exact h0
        simpa [Kernel.modify] using SignalQueue.Tidy.opened (q := SignalQueue.unlock _) hi rfl
      · simpa [Kernel.modify, he] using ht
    next h0 =>
      by_cases he : r = signal_owner k
      · subst he
        simpa [Kernel.modify] using ht.pop (owner_ne_zero hC h0)
      · simpa [Kernel.modify, he] using ht
  | hook =>
    by_cases he : r = k.current_task
    · subst he
      exact ht.congr (by simp [psignal_hook, Kernel.modify]) (by simp [psignal_hook, Kernel.modify])
    · simpa [psignal_hook, Kernel.modify, he] using ht
  | queued _ hp => exact hdeliver hp
  | handled _ hp _ hs =>
    rw [Kernel.link_procs (Kernel.fresh_ne hs hr)]
    exact hdeliver hp
  | spawned _ hs => rwa [Kernel.link_procs (Kernel.fresh_ne hs hr)]
  | exited _ hs hrf => rwa [Kernel.killed_procs (hw.linked.ring.prev_ne (hw.running hs) (hw.ne_base hrf))]
  | timer => rwa [irq0_isr_procs]

/-- **A step that pops no empty queue.** -/
theorem Kernel.Tidy.effect (hw : k.WellFormed) (h : k.Tidy) (hC : NoEmptyPop k (a, o)) (hE : Effect k a o k') :
    k'.Tidy := by
  have hold : ∀ p, k.Live p → (k'.procs p).sigq.Tidy := fun p hp => h.queue hw hC hE (hw.le hp) (h.live p hp)
  have hall : ∀ p, k'.Live p → (k'.procs p).sigq.Tidy := by
    intro p hl
    by_cases hp : k.Live p
    · exact hold p hp
    · rcases created hw hE hp hl with hf | hf
      · rw [hf.sigq]
        exact .opened rfl rfl
      · rw [hf.sigq]
        exact hold _ hf.owner
  refine ⟨h.locked.effect hw hE, hall, fun p hl hh => ?_⟩
  by_cases hp : k.Live p
  · have hrole := hw.sameRole hE (hw.le hp)
    rw [hrole.isHandler] at hh
    rw [hrole.parent]
    exact h.queue hw hC hE (h.locked.parent p hp hh).1 (h.parent p hp hh)
  · rcases created hw hE hp hl with hf | hf
    · rw [hf.not_handler] at hh
      cases hh
    · exact hold _ hf.owner

theorem Booted.tidy (h : Booted k) : k.Tidy := by
  refine ⟨h.handlersLocked, fun p hp => ?_, fun p hp hh => absurd hh (h.no_handler hp)⟩
  rw [h.live_eq hp]
  exact .opened h.next_index h.rwlock

/-- The answer of a send. -/
theorem Kernel.Tidy.answer (hw : k.WellFormed) (h : k.Tidy) {dest : PID_T} {dword : UInt32} {e : ERRNO_T}
    (hs : psignal_send k dest dword = .ok (e, k')) : e = send_answer k dest := by
  unfold send_answer
  cases hf : k.queue.find? (fun p => (k.procs p).pid == dest) with
  | none =>
    cases psignal_send_ok hw.linked hw.heap hs with
    | unknown => rfl
    | refused hp | queued hp | handled hp =>
      rw [hf] at hp
      cases hp
  | some p =>
    have ht := h.live p (List.mem_of_find?_eq_some hf)
    dsimp only
    split
    next h0 =>
      have hacc : TakesSignal k dest dword := (takesSignal_iff hw.linked hf).2 ⟨by rw [h0]; decide, ht.index_iff.1 h0⟩
      exact hacc.success hs
    next h1 =>
      have hlock : (k.procs p).sigq.rwlock = 1 := not_not.1 fun hl => h1 (ht.index_iff.2 hl)
      have hlt : ¬(k.procs p).sigq.next_index ≥ PSIGNAL_QUEUE_SIZE := by
        cases ht with
        | opened h0 => exact absurd h0 h1
        | locked h1 => rw [h1]; decide
      rw [psignal_send_found hw.linked hf, if_neg hlt, if_pos hlock] at hs
      exact (Prod.mk.inj (pure_ok.1 hs)).1.symm

theorem Kernel.Tidy.oneWaits (hw : k.WellFormed) (h : k.Tidy) : OneWaits k where
  queues _ hp := h.used hp
  handlers _ hp hh := h.handler hp hh
  answers _ _ _ _ hs := h.answer hw hs
  room dest dword k' hs := by
    have he := h.answer hw hs
    unfold send_answer at he
    split at he
    · exact absurd he (by decide)
    · split at he
      · exact absurd he (by decide)
      · exact absurd he (by decide)

/-- A step that pops an empty queue leaves the index of the parent at 255. -/
theorem OneWaits.noEmptyPop (hw : k.WellFormed) (hE : Effect k a o k') (h : OneWaits k') : NoEmptyPop k (a, o) := by
  unfold NoEmptyPop
  by_contra hp
  rw [Bool.not_eq_false] at hp
  cases a with
  | psignal_read =>
    simp only [pops_empty, Bool.and_eq_true, bne_iff_ne, ne_eq, beq_iff_eq] at hp
    obtain ⟨⟨hh, h0⟩, hpar⟩ := hp
    have howner : signal_owner k = k.current.parent := if_pos hh
    have hrole := hw.sameRole hE hw.current_le
    have hidx : ((psignal_read k).2.procs k.current.parent).sigq.next_index = 0 - 1 := by
      rw [psignal_read_eq, if_neg h0, howner]
      simp [Kernel.modify, SignalQueue.pop, SignalQueue.unlock, hpar]
    cases hE with
    | quiet _ hi => exact absurd hi.plain (by decide)
    | read hs =>
      have hl : (psignal_read k).2.Live k.current_task := (Kernel.sameLinks_read k).live.2 (hw.running hs)
      have ht := h.queues _ (.inr ⟨_, hl, hrole.isHandler.trans hh, hrole.parent⟩)
      cases ht with
      | opened hi => exact absurd (hidx.symm.trans hi) (by decide)
      | locked hi => exact absurd (hidx.symm.trans hi) (by decide)
    | exited ha => cases ha
    | queued hs | handled hs => cases hs
  | _ => cases hp

end Tidy

/-- **In every run in which no handler pops an empty queue** at most one signal waits in any queue; and the next
step keeps it so exactly when it pops none either. -/
theorem one_waits_of_no_empty_pop {es : List (Action × UInt64)} {k : Kernel} (h : RunsTo NoEmptyPop es k) :
    OneWaits k ∧ ∀ e k', Step k e k' → (OneWaits k' ↔ NoEmptyPop k e) := by
  have hw := h.wellFormed
  have ht : k.Tidy := h.invariant (fun _ hb => hb.tidy) fun hw h hC hE => h.effect hw hC hE
  refine ⟨ht.oneWaits hw, fun e k' hS => ⟨fun h' => h'.noEmptyPop hw (hS.effect hw), fun hC => ?_⟩⟩
  exact (ht.effect hw hC (hS.effect hw)).oneWaits (hS.wellFormed hw)

/-- The first process sends itself two signals, the second of which is refused, and the handler of the first
runs. -/
theorem one_waits_handled : ∃ es k, RunsTo NoEmptyPop es k ∧ k.current.isHandler = true ∧ OneWaits k := by
  obtain ⟨es, k, h, hn⟩ := traces_true NoEmptyPop (fun k => k.current.isHandler)
    [.psignal_hook 0x5000, .psignal_send 1 7, .psignal_send 1 8, .timer quietTick, .psignal_read] (by decide +kernel)
  exact ⟨es, k, h, hn, (one_waits_of_no_empty_pop h).1⟩

end Iridium
