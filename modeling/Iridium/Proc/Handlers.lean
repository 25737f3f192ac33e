import Iridium.Proc.Hooked
import Mathlib.Data.Set.Card

/-!
# The delivery of signals to handlers

A process with a callback has a handler spawned for each signal, and both it and its handlers may read the
queue. Whoever reads, the signals come in the order in which they were accepted, and each once: the queue never
holds more than one. And there are as many handlers as signals that were accepted with a callback, but for
those that have come to their end (`handled_in_order`).

A signal that comes before the callback has no handler. A process that leaves the reading to its handlers, as
`programs/sys/init` does, is sent nothing more then (`deaf_of_early`).
-/

namespace Iridium

/-- The word that the process at `r`, or a handler of it, reads, if it reads one that is not zero. -/
def fetched (r : ℕ) (e : Entry) : Option UInt64 :=
  match e.2.1 with
  | .psignal_read => if signal_owner e.1 = r ∧ e.2.2 ≠ 0 then some e.2.2 else none
  | _ => none

/-- A signal to the process at `r` is accepted, and there is a callback for it. -/
def hooked (r : ℕ) (e : Entry) : Bool := (accepted r e).isSome && (e.1.procs r).sigq.signal_callback != 0

/-- A handler of the process at `r` is killed. -/
def handler_ends (r : ℕ) (e : Entry) : Bool :=
  e.2.1.exits && (e.1.current.isHandler && decide (e.1.current.parent = r)) && !refused e.1 e.1.current.pid

/-- The words that are read in a run. -/
def fetches (r : ℕ) (es : List Entry) : List UInt64 := es.filterMap (fetched r)

/-- **What is asked for**: the process at `r` is no handler and the first with its PID, it is sent signals under
positive PIDs, and nobody pops an empty queue. -/
structure Hooks (r : ℕ) (k : Kernel) (e : Action × UInt64) : Prop where
  pops : NoEmptyPop k e
  first : k.Live r → k.queue.find? (fun p => (k.procs p).pid == (k.procs r).pid) = some r
  not_handler : k.Live r → (k.procs r).isHandler = false
  senders : k.Live r → sends_to r k e.1 = true → 0 < sender_pid k

instance (r : ℕ) (k : Kernel) (e : Action × UInt64) : Decidable (Hooks r k e) :=
  decidable_of_iff
    (NoEmptyPop k e ∧ (k.Live r → k.queue.find? (fun p => (k.procs p).pid == (k.procs r).pid) = some r) ∧
      (k.Live r → (k.procs r).isHandler = false) ∧ (k.Live r → sends_to r k e.1 = true → 0 < sender_pid k))
    ⟨fun h => ⟨h.1, h.2.1, h.2.2.1, h.2.2.2⟩, fun h => ⟨h.pops, h.first, h.not_handler, h.senders⟩⟩

/-- **The signals of `r` are handled in order**: what it and its handlers have read is what was sent to it, all
but one at most, and all when the queue is empty or a read finds nothing; and one handler was spawned for each
signal that was accepted with a callback. -/
structure Handled (r : ℕ) (es : List Entry) (k : Kernel) : Prop where
  order : ∃ rest, rest.length ≤ 1 ∧
    (sent r es).map content = (fetches r es).map decode ++ rest
  all : k.Live r → (k.procs r).isHandler = false → (k.procs r).sigq.next_index = 0 →
    (sent r es).map content = (fetches r es).map decode
  nothing : ∀ k', Hooks r k (.psignal_read, 0) → signal_owner k = r → Step k (.psignal_read, 0) k' →
    (sent r es).map content = (fetches r es).map decode
  handlers : (k.handlers r).ncard + es.countP (handler_ends r) = es.countP (hooked r)

/-- A queue without its callback. -/
def SignalQueue.unhook (q : SignalQueue) : SignalQueue := { q with signal_callback := 0 }

/-- **What a run has done for `r`**, before it is there, while its queue is used and afterwards. -/
structure Handling (r : ℕ) (es : List Entry) (k : Kernel) : Prop where
  tidy : k.Tidy
  unborn : k.frontier < r → sent r es = [] ∧ fetches r es = []
  boxed : Used k r → (k.procs r).isHandler = false →
    Boxed (k.procs r).sigq.unhook (sent r es) (fetches r es)
  positive : ∀ s ∈ sent r es, 0 < s.1
  left : ∃ rest, rest.length ≤ 1 ∧ (sent r es).map word = fetches r es ++ rest
  count : (k.handlers r).ncard + es.countP (handler_ends r) = es.countP (hooked r)

section Handlers

variable {k k' : Kernel} {a : Action} {o : UInt64} {r : ℕ} {es : List Entry} {q : SignalQueue} {hs : Set ℕ}

theorem fetches_snoc (e : Entry) : fetches r (es ++ [e]) = fetches r es ++ (fetched r e).toList := by
  unfold fetches
  cases h : fetched r e <;> simp [h]

theorem fetched_eq_none (h : a = .psignal_read → signal_owner k ≠ r) : fetched r (k, a, o) = none := by
  unfold fetched
  dsimp only
  split
  next => exact if_neg fun hr => h rfl hr.1
  next => rfl

/-- What is sent is not read. -/
theorem fetched_of_accepted {s : PID_T × UInt32} (h : accepted r (k, a, o) = some s) : fetched r (k, a, o) = none :=
  fetched_eq_none fun ha => by
    rw [ha, accepted_eq_none rfl] at h
    cases h

theorem accepted_of_exits (h : a.exits = true) : accepted r (k, a, o) = none :=
  accepted_eq_none (by cases a <;> first | rfl | cases h)

theorem fetched_of_exits (h : a.exits = true) : fetched r (k, a, o) = none :=
  fetched_eq_none fun ha => by
    rw [ha] at h
    cases h

/-! ### The words -/

/-- Who is sent a signal is live. -/
theorem live_of_accepted {s : PID_T × UInt32} (h : accepted r (k, a, o) = some s) :
    k.Live r ∧ sends_to r k a = true := by
  unfold accepted at h
  dsimp only at h
  split at h
  next => cases h
  next hs =>
    split at h
    next hl => exact ⟨hl.1, by simp [sends_to, hs, hl.2]⟩
    next => cases h

/-- Nothing is sent and nothing read. -/
theorem Boxed.still {e : Entry} (h : Boxed q (sent r es) (fetches r es)) (ha : accepted r e = .none)
    (hf : fetched r e = .none) : Boxed q (sent r (es ++ [e])) (fetches r (es ++ [e])) := by
  simpa [sent_snoc, fetches_snoc, ha, hf] using h

/-- A signal queued. -/
theorem Boxed.accept {dword : UInt32} (h : Boxed (k.procs r).sigq.unhook (sent r es) (fetches r es))
    (hC : Hooks r k (a, o)) (hacc : accepted r (k, a, o) = some (sender_pid k, dword)) (hopen : Accepts k r) :
    Boxed ((k.procs r).sigq.push (word (sender_pid k, dword))).unhook (sent r (es ++ [(k, a, o)]))
      (fetches r (es ++ [(k, a, o)])) := by
  obtain ⟨hl, hto⟩ := live_of_accepted hacc
  have hpos : 0 < (sender_pid k, dword).1 := hC.senders hl hto
  rw [sent_snoc, fetches_snoc, hacc, fetched_of_accepted hacc, Option.toList_none, List.append_nil]
  exact h.push hopen.unlocked hpos

/-- **One action, and the words.** Who reads nothing has read everything. -/
theorem HookMail.boxed (hm : HookMail k r a o q hs) (hw : k.WellFormed) (ht : k.Tidy) (hC : Hooks r k (a, o))
    (he : Enabled k a) (h : Boxed (k.procs r).sigq.unhook (sent r es) (fetches r es)) :
    Boxed q.unhook (sent r (es ++ [(k, a, o)])) (fetches r (es ++ [(k, a, o)])) ∧
      (a = .psignal_read → signal_owner k = r → o = 0 → (sent r es).map word = fetches r es) := by
  have hsend : ∀ {s}, accepted r (k, a, o) = some s → a ≠ .psignal_read := by
    rintro s hs rfl
    rw [accepted_eq_none rfl] at hs
    cases hs
  cases hm with
  | same hsp => exact ⟨h.still hsp.accepted (fetched_eq_none hsp.read), fun ha ho => absurd ho (hsp.read ha)⟩
  | hook => exact ⟨h.still (accepted_eq_none rfl) (fetched_eq_none nofun), nofun⟩
  | queued hacc hopen => exact ⟨h.accept hC hacc hopen, fun ha => absurd ha (hsend hacc)⟩
  | handled hacc hopen => exact ⟨h.accept hC hacc hopen, fun ha => absurd ha (hsend hacc)⟩
  | empty ho h0 hword =>
    have hi : (k.procs r).sigq.unhook.next_index = 0 := by
      rw [ht.reader hw (he.runs rfl) h0] at ho
      rw [← ho]
      exact h0
    obtain ⟨hb, hall⟩ := h.unlock hi
    exact ⟨hb.still (accepted_eq_none rfl) (by simp [fetched, hword]), fun _ _ _ => hall⟩
  | pop ho h0 hword =>
    have hi : (k.procs r).sigq.unhook.next_index ≠ 0 := ho ▸ owner_ne_zero hC.pops h0
    obtain ⟨hb, s, hs, hq⟩ := h.pop hi
    have hpos := hb.positive s hs
    -- the word is that of a signal sent, so it passes the test and is not zero
    have hq : (k.procs r).sigq.queue ((k.procs r).sigq.next_index - 1) = word s := hq
    have hread : o = word s := by
      rw [hword, hq]
      exact if_pos (top_bits_untouched hpos s.2)
    have hne : o ≠ 0 := hread ▸ psignal_word_ne_zero hpos s.2
    have hf : fetched r (k, .psignal_read, o) = some (word s) := hread ▸ if_pos ⟨ho, hne⟩
    have hb : Boxed (k.procs r).sigq.unlock.pop.unhook (sent r es) (fetches r es ++ [word s]) := hq ▸ hb
    rw [sent_snoc, fetches_snoc, accepted_eq_none rfl, hf]
    exact ⟨by simpa using hb, fun _ _ h0 => absurd h0 hne⟩
  | exited ha =>
    refine ⟨h.still (accepted_of_exits ha) (fetched_of_exits ha), fun hr => ?_⟩
    rw [hr] at ha
    cases ha

/-! ### The handlers -/

theorem handler_ends_iff (hw : k.WellFormed) (he : Enabled k a) : handler_ends r (k, a, o) = true ↔
    a.exits = true ∧ refused k k.current.pid = false ∧ k.current_task ∈ k.handlers r := by
  simp only [handler_ends, Bool.and_eq_true, decide_eq_true_eq, Bool.not_eq_true']
  constructor
  · rintro ⟨⟨ha, hh, hp⟩, hr⟩
    exact ⟨ha, hr, hw.running (he.not_spinning ha), hh, hp⟩
  · rintro ⟨ha, hr, -, hh, hp⟩
    exact ⟨⟨ha, hh, hp⟩, hr⟩

theorem Kernel.finite_handlers (k : Kernel) (r : ℕ) : (k.handlers r).Finite :=
  (List.finite_toSet k.queue).subset fun _ hp => hp.1

/-- **One action, and the number of handlers.** -/
theorem HookMail.count (hm : HookMail k r a o q hs) (hw : k.WellFormed) (he : Enabled k a) :
    hs.ncard + (handler_ends r (k, a, o)).toNat = (k.handlers r).ncard + (hooked r (k, a, o)).toNat := by
  have hfin := k.finite_handlers r
  have hends := handler_ends_iff (r := r) (o := o) hw he
  have hstay : ∀ {s}, accepted r (k, a, o) = some s → handler_ends r (k, a, o) = false := fun hs => by
    rw [Bool.eq_false_iff]
    intro hx
    rw [accepted_of_exits (hends.1 hx).1] at hs
    cases hs
  cases hm with
  | same hsp =>
    have hx : handler_ends r (k, a, o) = false := by
      rw [Bool.eq_false_iff]
      intro hx
      obtain ⟨ha, hr, hc⟩ := hends.1 hx
      rw [hsp.exit ha hc] at hr
      cases hr
    simp [hx, hooked, hsp.accepted]
  | hook => rfl
  | queued hacc _ hcb => simp [hstay hacc, hooked, hcb]
  | @handled _ _ _ h hacc _ hcb hnew =>
    have hn : h ∉ k.handlers r := fun hm => Nat.not_lt.2 (hw.le hm.1) hnew
    have hhook : hooked r (k, a, o) = true := by simp [hooked, hacc, bne_iff_ne.2 hcb]
    rw [Set.ncard_insert_of_notMem hn hfin, hstay hacc, hhook]
    rfl
  | empty => rfl
  | pop => rfl
  | exited ha hr hc =>
    rw [hends.2 ⟨ha, hr, hc⟩, hooked, accepted_of_exits ha]
    exact Set.ncard_sdiff_singleton_add_one hc hfin

/-! ### One step -/

theorem countP_snoc {P : Entry → Bool} (e : Entry) : (es ++ [e]).countP P = es.countP P + (P e).toNat := by
  cases h : P e <;> simp [h]

/-- Who reads uses the queue that it reads, and who is sent a signal or has a handler uses its own. -/
theorem used_of_owner (hw : k.WellFormed) (hs : k.spinning = false) : Used k (signal_owner k) := by
  unfold signal_owner
  split
  next hh => exact .inr ⟨_, hw.running hs, hh, rfl⟩
  next => exact .inl (hw.running hs)

/-- Who has a handler had its queue used before. -/
theorem used_of_handlers (hw : k.WellFormed) (hE : Effect k a o k') {p : ℕ} (h : p ∈ k'.handlers r) : Used k r := by
  obtain ⟨hl, hh, hpar⟩ := h
  by_cases hp : k.Live p
  · have hrole := hw.sameRole hE (hw.le hp)
    exact .inr ⟨p, hp, hrole.isHandler ▸ hh, hrole.parent ▸ hpar⟩
  · rcases created hw hE hp hl with hf | hf
    · rw [hf.not_handler] at hh
      cases hh
    · exact .inl (hpar ▸ hf.owner)

/-- **The queue of a handler** has the signal that the handler was spawned for: a new one has a copy of a queue in
which its signal is the only one. -/
theorem HookMail.own (hm : HookMail k r a o (k'.procs r).sigq (k'.handlers r)) (hw : k.WellFormed)
    (hlock : HandlersLocked k) (hE : Effect k a o k')
    (h0 : (k.procs r).sigq.rwlock ≠ 1 → (k.procs r).sigq.next_index = 0)
    (hown : ∀ p ∈ k.handlers r, (k.procs p).sigq.next_index = 1) {p : ℕ} (hp : p ∈ k'.handlers r) :
    (k'.procs p).sigq.next_index = 1 := by
  by_cases hl : k.Live p
  · have hrole := hw.sameRole hE (hw.le hl)
    have hh : (k.procs p).isHandler = true := hrole.isHandler ▸ hp.2.1
    rw [handler_index hw hlock hE hl hh]
    exact hown p ⟨hl, hh, hrole.parent ▸ hp.2.2⟩
  · rcases created hw hE hl hp.1 with hf | hf
    · have := hf.not_handler
      rw [hp.2.1] at this
      cases this
    · rw [hf.sigq, hp.2.2]
      have hne : k'.handlers r ≠ k.handlers r := fun he => hl (he ▸ hp).1
      generalize (k'.procs r).sigq = q at hm ⊢
      generalize k'.handlers r = H at hm hne hp
      cases hm with
      | handled _ hacc =>
        show (k.procs r).sigq.next_index + 1 = 1
        rw [h0 hacc.unlocked]
        rfl
      | same | hook | queued | empty | pop => exact absurd rfl hne
      | exited => exact absurd hp.1.1 hl

theorem ncard_handlers (h : ∀ p, p ∉ k.handlers r) : (k.handlers r).ncard = 0 := by
  rw [Set.eq_empty_of_forall_notMem h, Set.ncard_empty]

/-- **A step while the queue is not used.** -/
theorem Handling.unused (hw : k.WellFormed) (h : Handling r es k) (ht : k'.Tidy) (hu : ¬Used k r)
    (hS : Step k (a, o) k') : Handling r (es ++ [(k, a, o)]) k' := by
  have hE := hS.effect hw
  have ha : accepted r (k, a, o) = none := accepted_of_not_live fun hl => hu (.inl hl)
  have hf : fetched r (k, a, o) = none := fetched_eq_none fun hr ho => by
    refine hu (ho ▸ used_of_owner hw (hS.1.runs ?_))
    rw [hr]
    rfl
  have hsent : sent r (es ++ [(k, a, o)]) = sent r es := by simp [sent_snoc, ha]
  have hread : fetches r (es ++ [(k, a, o)]) = fetches r es := by simp [fetches_snoc, hf]
  refine ⟨ht, fun hlt => ?_, fun hu' hh => ?_, ?_, ?_, ?_⟩
  · rw [hsent, hread]
    exact h.unborn (Nat.lt_of_le_of_lt (frontier_le hE) hlt)
  · -- the process is new, and no handler
    have hl : k'.Live r := hu'.resolve_right fun ⟨p, hp⟩ => hu (used_of_handlers hw hE hp)
    rcases created hw hE (fun hl => hu (.inl hl)) hl with hf | hf
    · obtain ⟨h₁, h₂⟩ := h.unborn hf.fresh
      rw [hsent, hread, h₁, h₂, hf.sigq]
      exact Boxed.init _
    · rw [hf.handler] at hh
      cases hh
  · rw [hsent]
    exact h.positive
  · rw [hsent, hread]
    exact h.left
  · have hx : handler_ends r (k, a, o) = false := by
      rw [Bool.eq_false_iff]
      exact fun hx => hu (.inr ⟨_, ((handler_ends_iff hw hS.1).1 hx).2.2⟩)
    have hk : hooked r (k, a, o) = false := by simp [hooked, ha]
    have hcount := h.count
    rw [ncard_handlers fun p hp => hu (.inr ⟨p, hp⟩)] at hcount
    rw [countP_snoc, countP_snoc, hx, hk, ncard_handlers fun p hp => hu (used_of_handlers hw hE hp)]
    exact hcount

/-- Whose queue is used is there, and no handler. -/
theorem Handling.there (hw : k.WellFormed) (h : Handling r es k) (hu : Used k r) (hC : Hooks r k (a, o)) :
    r ≤ k.frontier ∧ (k.procs r).isHandler = false := by
  rcases hu with hl | ⟨p, hl, hh, rfl⟩
  · exact ⟨hw.le hl, hC.not_handler hl⟩
  · exact h.tidy.locked.parent p hl hh

/-- **A step while it is.** -/
theorem Handling.used (hw : k.WellFormed) (h : Handling r es k) (ht : k'.Tidy) (hu : Used k r) (hC : Hooks r k (a, o))
    (hS : Step k (a, o) k') : Handling r (es ++ [(k, a, o)]) k' := by
  have hE := hS.effect hw
  have hr := h.there hw hu hC
  have hmail := hookMail hw hr.1 hr.2 hC.first hS
  have hb := (hmail.boxed hw h.tidy hC hS.1 (h.boxed hu hr.2)).1
  have hc := hmail.count hw hS.1
  refine ⟨ht, fun hlt => ?_, fun _ _ => hb, hb.positive, ?_, ?_⟩
  · exact absurd (Nat.lt_of_le_of_lt (frontier_le hE) hlt) (Nat.not_lt.2 hr.1)
  · obtain ⟨ws, hH, heq⟩ := hb.pending
    refine ⟨ws, ?_, heq⟩
    cases hH <;> simp
  · have := h.count
    rw [countP_snoc, countP_snoc]
    omega

/-- **One more step.** -/
theorem Handling.step (hw : k.WellFormed) (h : Handling r es k) (hC : Hooks r k (a, o)) (hS : Step k (a, o) k') :
    Handling r (es ++ [(k, a, o)]) k' := by
  have ht := h.tidy.effect hw hC.pops (hS.effect hw)
  by_cases hu : Used k r
  · exact h.used hw ht hu hC hS
  · exact h.unused hw ht hu hS

theorem Booted.handling (h : Booted k) : Handling r [] k := by
  have hno : ∀ p, p ∉ k.handlers r := fun p hp => h.no_handler hp.1 hp.2.1
  refine ⟨h.tidy, fun _ => ⟨rfl, rfl⟩, fun hu _ => ?_, by simp [sent], ⟨[], by simp, rfl⟩, ?_⟩
  · have hr : r = k.current_task := h.live_eq (hu.resolve_right (not_exists.2 hno))
    rw [hr]
    exact ⟨rfl, by simp [sent], [], .empty h.next_index, rfl⟩
  · rw [ncard_handlers hno]
    rfl

/-- What the words say. -/
theorem Handling.decoded (h : Handling r es k) : (sent r es).map content = ((sent r es).map word).map decode := by
  rw [List.map_map]
  exact List.map_congr_left fun s hs => (decode_word (h.positive s hs)).symm

theorem Handling.handled (hw : k.WellFormed) (h : Handling r es k) : Handled r es k where
  order := by
    obtain ⟨rest, hlen, heq⟩ := h.left
    exact ⟨rest.map decode, by simpa using hlen, by rw [h.decoded, heq, List.map_append]⟩
  all hl hh h0 := by
    obtain ⟨ws, hH, heq⟩ := (h.boxed (.inl hl) hh).pending
    rw [h.decoded, heq]
    cases hH with
    | empty => rw [List.append_nil]
    | one h1 => exact absurd (h0.symm.trans h1) (by decide)
  nothing k' hC ho hS := by
    have hu : Used k r := ho ▸ used_of_owner hw (hS.1.runs rfl)
    have hr := h.there hw hu hC
    have hmail := hookMail hw hr.1 hr.2 hC.first hS
    rw [h.decoded, (hmail.boxed hw h.tidy hC hS.1 (h.boxed hu hr.2)).2 rfl ho rfl]
  handlers := h.count

end Handlers

/-! ### Results -/

/-- **In every run in which nobody pops an empty queue** the signals of any process are handled in order. -/
theorem handled_in_order {r : ℕ} {k₀ k : Kernel} {es : List Entry} (h₀ : Started k₀)
    (h : Lib.Run Logged (fun k e => Hooks r k e.2) k₀ es k) : Handled r es k := by
  obtain ⟨hw₀, hb⟩ := h₀.booted
  obtain ⟨hw, hI⟩ := h.history (I := fun es k => k.WellFormed ∧ Handling r es k) ⟨hw₀, hb.handling⟩
    fun {es t u e} hI hC hS => by
      obtain ⟨rfl, hS⟩ := hS
      exact ⟨hS.wellFormed hI.1, hI.2.step hI.1 hC hS⟩
  exact hI.handled hw

/-- The first process is sent two signals, the second after the handler of the first has read. -/
theorem handled_in_order_two : ∃ r k₀ es k, Started k₀ ∧ Lib.Run Logged (fun k e => Hooks r k e.2) k₀ es k ∧
    k.queue_base = r ∧ k.queue.length = 3 ∧ Handled r es k := by
  obtain ⟨es, k, ⟨k₀, h₀, h⟩, hn⟩ := traces_true (Hooks first_descriptor)
    (fun k => decide (k.queue_base = first_descriptor ∧ k.queue.length = 3))
    [.psignal_hook 0x5000, .psignal_send 1 7, .timer quietTick, .psignal_read, .psignal_send 1 8] (by decide +kernel)
  obtain ⟨hb, hq⟩ := of_decide_eq_true hn
  obtain ⟨fs, hr, -⟩ := logged h
  exact ⟨_, k₀, fs, k, h₀, hr, hb, hq, handled_in_order h₀ hr⟩

/-! ### A signal before the callback -/

/-- The process at `r` is no handler and the first with its PID, and reads nothing itself. -/
structure LeavesReading (r : ℕ) (k : Kernel) (e : Action × UInt64) : Prop where
  first : k.Live r → k.queue.find? (fun p => (k.procs p).pid == (k.procs r).pid) = some r
  not_handler : k.Live r → (k.procs r).isHandler = false
  reads : e.1 = .psignal_read → k.current_task ≠ r

instance (r : ℕ) (k : Kernel) (e : Action × UInt64) : Decidable (LeavesReading r k e) :=
  decidable_of_iff
    ((k.Live r → k.queue.find? (fun p => (k.procs p).pid == (k.procs r).pid) = some r) ∧
      (k.Live r → (k.procs r).isHandler = false) ∧
      ((match e.1 with | .psignal_read => true | _ => false) = true → k.current_task ≠ r))
    ⟨fun h => ⟨h.1, h.2.1, fun he => h.2.2 (by rw [he])⟩,
      fun h => ⟨h.first, h.not_handler, fun he => h.reads (by split at he <;> first | assumption | cases he)⟩⟩

/-- The process at `r` has no handler, and no callback. -/
structure Unhooked (r : ℕ) (k : Kernel) : Prop where
  locked : HandlersLocked k
  nobody : ∀ p, p ∉ k.handlers r
  callback : k.Live r → (k.procs r).isHandler = false → (k.procs r).sigq.signal_callback = 0

/-- It has no handler, and its queue is locked. -/
structure Deaf (r : ℕ) (k : Kernel) : Prop where
  locked : HandlersLocked k
  nobody : ∀ p, p ∉ k.handlers r
  there : r ≤ k.frontier
  not_handler : (k.procs r).isHandler = false
  rwlock : (k.procs r).sigq.rwlock = 1

section Early

variable {k k' : Kernel} {a : Action} {o : UInt64} {r : ℕ}

/-- Who has no handler and does not read has its queue read by nobody. -/
theorem owner_ne (hw : k.WellFormed) (hn : ∀ p, p ∉ k.handlers r) (hs : k.spinning = false)
    (hc : k.current_task ≠ r) : signal_owner k ≠ r := by
  unfold signal_owner
  split
  next hh => exact fun he => hn _ ⟨hw.running hs, hh, he⟩
  next => exact hc

/-- A new handler of `r` was spawned since `r` has a callback and took a signal. -/
theorem new_handler (hw : k.WellFormed) (hE : Effect k a o k') (hn : ∀ p, p ∉ k.handlers r) {p : ℕ}
    (hp : p ∈ k'.handlers r) : k.Live r ∧ Accepts k r ∧ (k.procs r).sigq.signal_callback ≠ 0 := by
  obtain ⟨hl, hh, rfl⟩ := hp
  have hnew : ¬k.Live p := fun hl => by
    have hrole := hw.sameRole hE (hw.le hl)
    exact hn p ⟨hl, hrole.isHandler ▸ hh, hrole.parent.symm⟩
  obtain ⟨-, hlive, hacc⟩ := created_handler hw hE hnew hl hh
  rcases created hw hE hnew hl with hf | hf
  · rw [hf.not_handler] at hh
    cases hh
  · exact ⟨hlive, hacc, hf.callback⟩

/-- **A step before the callback.** -/
theorem Unhooked.step (hw : k.WellFormed) (h : Unhooked r k) (hC : LeavesReading r k (a, o))
    (hi : k.current_task = r → installs a = false) (hS : Step k (a, o) k') : Unhooked r k' := by
  have hE := hS.effect hw
  refine ⟨h.locked.effect hw hE, fun p hp => ?_, fun hl' hh' => ?_⟩
  · obtain ⟨hl, -, hcb⟩ := new_handler hw hE h.nobody hp
    exact hcb (h.callback hl (hC.not_handler hl))
  · by_cases hl : k.Live r
    · have hh := hC.not_handler hl
      have hcb := h.callback hl hh
      have hmail := hookMail hw (hw.le hl) hh hC.first hS
      generalize (k'.procs r).sigq = q at hmail
      generalize k'.handlers r = hs at hmail
      cases hmail with
      | hook hc => simpa [installs] using hi hc
      | _ => exact hcb
    · rcases created hw hE hl hl' with hf | hf
      · rw [hf.sigq]
        rfl
      · rw [hf.handler] at hh'
        cases hh'

/-- **A signal then.** -/
theorem Unhooked.accept (hw : k.WellFormed) (h : Unhooked r k) (hC : LeavesReading r k (a, o))
    (ha : accepted r (k, a, o) ≠ none) (hS : Step k (a, o) k') : Deaf r k' := by
  have hE := hS.effect hw
  have hl : k.Live r := by
    obtain ⟨s, hs⟩ := Option.ne_none_iff_exists'.1 ha
    exact (live_of_accepted hs).1
  have hh := hC.not_handler hl
  have hcb := h.callback hl hh
  refine ⟨h.locked.effect hw hE, fun p hp => (new_handler hw hE h.nobody hp).2.2 hcb,
    (hw.le hl).trans (frontier_le hE), ((hw.sameRole hE (hw.le hl)).isHandler).trans hh, ?_⟩
  have hmail := hookMail hw (hw.le hl) hh hC.first hS
  generalize (k'.procs r).sigq = q at hmail
  generalize k'.handlers r = hs at hmail
  cases hmail with
  | queued => rfl
  | handled => rfl
  | same hsp => exact absurd hsp.accepted ha
  | hook | empty | pop => exact absurd (accepted_eq_none rfl) ha
  | exited hx => exact absurd (accepted_of_exits hx) ha

/-- **A step afterwards**: nothing is accepted and nothing read. -/
theorem Deaf.step (hw : k.WellFormed) (h : Deaf r k) (hC : LeavesReading r k (a, o)) (hS : Step k (a, o) k') :
    Deaf r k' ∧ accepted r (k, a, o) = none ∧ fetched r (k, a, o) = none := by
  have hE := hS.effect hw
  have hunread : a = .psignal_read → signal_owner k ≠ r := fun ha => by
    refine owner_ne hw h.nobody (hS.1.runs ?_) (hC.reads ha)
    rw [ha]
    rfl
  have hdeaf : ¬Accepts k r := fun hacc => hacc.unlocked h.rwlock
  refine ⟨⟨h.locked.effect hw hE, fun p hp => hdeaf (new_handler hw hE h.nobody hp).2.1, h.there.trans (frontier_le hE),
    ((hw.sameRole hE h.there).isHandler).trans h.not_handler, ?_⟩, ?_, fetched_eq_none hunread⟩
  all_goals
    have hmail := hookMail hw h.there h.not_handler hC.first hS
    generalize (k'.procs r).sigq = q at hmail
    generalize k'.handlers r = hs at hmail
    cases hmail with
    | same hsp => first | exact h.rwlock | exact hsp.accepted
    | hook => first | exact h.rwlock | exact accepted_eq_none rfl
    | queued _ hacc | handled _ hacc => exact absurd hacc hdeaf
    | empty ho | pop ho => exact absurd ho (hunread rfl)
    | exited _ _ hc => exact absurd hc (h.nobody _)

end Early

/-- **In every run** in which the process at `r` leaves the reading to its handlers: when a signal is accepted
before it has installed a callback, no other is ever accepted, none is read, and it never has a handler. -/
theorem deaf_of_early {r : ℕ} {k₀ k : Kernel} {es₁ es₂ : List Entry} {e : Entry} (h₀ : Started k₀)
    (h : Lib.Run Logged (fun k e => LeavesReading r k e.2) k₀ (es₁ ++ e :: es₂) k)
    (hi : ∀ f ∈ es₁, f.1.current_task = r → installs f.2.1 = false) (he : accepted r e ≠ none) :
    (∀ f ∈ es₂, accepted r f = none ∧ fetched r f = none) ∧ k.handlers r = ∅ := by
  obtain ⟨hw₀, hb⟩ := h₀.booted
  obtain ⟨k₁, h₁, h⟩ := h.split rfl
  obtain ⟨k₂, hC, ⟨hk, hS⟩, h₂⟩ := h.cons_split rfl
  obtain ⟨_, a, o⟩ := e
  obtain rfl : _ = k₁ := hk
  -- before the signal
  have hbooted : Unhooked r k₀ := ⟨hb.handlersLocked, fun p hp => hb.no_handler hp.1 hp.2.1, fun hl _ => by
    rw [hb.live_eq hl]
    exact hb.signal_callback⟩
  obtain ⟨hw₁, hun⟩ := (h₁.and_mem hi).invariant (I := fun k => k.WellFormed ∧ Unhooked r k) ⟨hw₀, hbooted⟩
    fun {t u e} hI hC hS => by
      obtain ⟨_, a, o⟩ := e
      obtain ⟨rfl, hS⟩ := hS
      exact ⟨hS.wellFormed hI.1, hI.2.step hI.1 hC.1 hC.2 hS⟩
  have hdeaf := hun.accept hw₁ hC he hS
  -- and after it
  obtain ⟨-, hd, hall⟩ := h₂.history
    (I := fun es k => k.WellFormed ∧ Deaf r k ∧ ∀ f ∈ es, accepted r f = none ∧ fetched r f = none)
    ⟨hS.wellFormed hw₁, hdeaf, fun f hf => absurd hf List.not_mem_nil⟩ fun {es t u e} ⟨hw, hd, hall⟩ hC hS => by
      obtain ⟨_, a, o⟩ := e
      obtain ⟨rfl, hS⟩ := hS
      obtain ⟨hd', hnone⟩ := hd.step hw hC hS
      refine ⟨hS.wellFormed hw, hd', fun f hf => ?_⟩
      rcases List.mem_append.1 hf with hf | hf
      · exact hall f hf
      · rw [List.mem_singleton.1 hf]
        exact hnone
  exact ⟨hall, Set.eq_empty_of_forall_notMem hd.nobody⟩

/-- The first process is sent a signal, installs its callback, and is sent another. -/
theorem deaf_of_early_hooked : ∃ r k₀ es₂ e k, Started k₀ ∧
    Lib.Run Logged (fun k e => LeavesReading r k e.2) k₀ ([] ++ e :: es₂) k ∧ accepted r e ≠ none ∧
      k.current.sigq.signal_callback = 0x5000 ∧ k.handlers r = ∅ := by
  have ht : answers (start machine 0x1234 >>= fun k => act k (.psignal_send 1 7) >>= fun q =>
      if Enabled k (.psignal_send 1 7) ∧ LeavesReading first_descriptor k (.psignal_send 1 7, q.1) ∧
          accepted first_descriptor (k, .psignal_send 1 7, q.1) ≠ none then
        runs (LeavesReading first_descriptor) q.2 [.psignal_hook 0x5000, .psignal_send 1 8]
      else .error .stopped) (fun k => k.current.sigq.signal_callback == 0x5000) = true := by decide +kernel
  obtain ⟨k, hk, ht⟩ := answers_iff.1 ht
  obtain ⟨k₀, h₀, hk⟩ := bind_ok.1 hk
  obtain ⟨⟨o, k₁⟩, ha, hk⟩ := bind_ok.1 hk
  split at hk
  next hc =>
    obtain ⟨es, hr⟩ := runs_ok hk
    obtain ⟨fs, hr, -⟩ := logged hr
    have hstart : Started k₀ := ⟨machine, _, machine_powerOn, h₀⟩
    have hfirst : Lib.Run Logged (fun k e => LeavesReading first_descriptor k e.2) k₀
        [(k₀, .psignal_send 1 7, o)] k₁ := .single hc.2.1 ⟨rfl, hc.1, ha⟩
    have hrun : Lib.Run Logged _ k₀ ([] ++ (k₀, .psignal_send 1 7, o) :: fs) k := hfirst.trans hr
    have hdeaf := deaf_of_early hstart hrun (fun f hf => absurd hf List.not_mem_nil) hc.2.2
    exact ⟨_, k₀, fs, _, k, hstart, hrun, hc.2.2, beq_iff_eq.1 ht, hdeaf.2⟩
  next => cases hk

end Iridium
