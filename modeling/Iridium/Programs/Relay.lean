import Iridium.Proc.Keys
import Iridium.Programs.Initd

/-!
# The relay of keystrokes

`programs/sys/init` on the kernel. What the kernel does to the queue of the first process and to its handlers
(`HookMail`), and what the program does with the answers, are steps of the relay; so what it passes on is what
came in (`relayed`).
-/

namespace Iridium

/-- **What a run has done for the program.** -/
structure InitRelay (b : ℕ) (es : List Entry) (k : Kernel) (i : Initd) : Prop where
  wellFormed : k.WellFormed
  base : k.queue_base = b
  not_handler : (k.procs b).isHandler = false
  locked : HandlersLocked k
  /-- The queue of a handler has the signal it was spawned for. -/
  own : ∀ p ∈ k.handlers b, (k.procs p).sigq.next_index = 1
  /-- Who does not yet exist begins with the callback. -/
  fresh : ∀ p, k.frontier < p → i.callback p = .mutex_acquire
  relaying : Relaying ((es.filterMap (accepted b)).map word) (es.filterMap (init_fetch b))
    (es.filterMap (init_send b)) (k.procs b).sigq (k.handlers b) i

section Relay

variable {k k' : Kernel} {a : Action} {o cb : UInt64} {b : ℕ} {es : List Entry} {i i' : Initd}
  {q : SignalQueue} {H : Set ℕ}

/-- An action that is none of the program's fetches and sends nothing for it. -/
theorem init_other (h : a.isInterrupt = true ∨ signal_owner k ≠ b) :
    init_fetch b (k, a, o) = none ∧ init_send b (k, a, o) = none := by
  cases a with
  | psignal_read => exact ⟨if_neg (h.resolve_left nofun), rfl⟩
  | psignal_send => exact ⟨rfl, if_neg (h.resolve_left nofun)⟩
  | _ => exact ⟨rfl, rfl⟩

/-- Who runs and is a handler of `b` acts for `b`. -/
theorem owner_of_handler (h : k.current_task ∈ k.handlers b) : signal_owner k = b := by
  unfold signal_owner
  rw [if_pos (show k.current.isHandler = true from h.2.1)]
  exact h.2.2

theorem handler_of_owner (hl : k.Live k.current_task) (ho : signal_owner k = b) (hc : k.current_task ≠ b) :
    k.current_task ∈ k.handlers b := by
  unfold signal_owner at ho
  split at ho
  next hh => exact ⟨hl, hh, ho⟩
  next => exact absurd ho hc

/-- An action that is none of the program's. -/
theorem HookMail.other (hm : HookMail k b a o q H) (hn : a.isInterrupt = true ∨ signal_owner k ≠ b)
    (hb : (k.procs b).isHandler = false) (hC : accepted b (k, a, o) ≠ none → (k.procs b).sigq.signal_callback ≠ 0) :
    (accepted b (k, a, o) = none ∧ q = (k.procs b).sigq ∧ H = k.handlers b) ∨
      ∃ s h, accepted b (k, a, o) = some s ∧ q = (k.procs b).sigq.push (word s) ∧ H = insert h (k.handlers b) ∧
        (k.procs b).sigq.rwlock ≠ 1 ∧ k.frontier < h := by
  cases hm with
  | same hsp => exact .inl ⟨hsp.accepted, rfl, rfl⟩
  | hook hc =>
    have howner : signal_owner k = b := by
      unfold signal_owner Kernel.current
      rw [hc, if_neg (by rw [hb]; decide)]
    exact absurd howner (hn.resolve_left nofun)
  | queued hacc _ hcb => exact absurd hcb (hC (by rw [hacc]; nofun))
  | handled hacc hopen _ hnew => exact .inr ⟨_, _, hacc, rfl, rfl, hopen.unlocked, hnew⟩
  | empty ho => exact absurd ho (hn.resolve_left nofun)
  | pop ho => exact absurd ho (hn.resolve_left nofun)
  | exited hx _ hc =>
    refine absurd (owner_of_handler hc) (hn.resolve_left fun hi => ?_)
    cases a <;> simp [Action.exits, Action.isInterrupt] at hx hi

/-- A queue that is not locked is empty. -/
theorem InitRelay.empty (h : InitRelay b es k i) (hl : (k.procs b).sigq.rwlock ≠ 1) :
    (k.procs b).sigq.next_index = 0 := by
  obtain ⟨ws, hq, -⟩ := h.relaying.waiting
  cases hq with
  | empty h0 => exact h0
  | one _ hl' => exact absurd hl' hl

/-- **What is left to show of a step of the kernel** is what it does to the relay. -/
theorem InitRelay.step (h : InitRelay b es k i) (hm : HookMail k b a o (k'.procs b).sigq (k'.handlers b))
    (hE : Effect k a o k') (hi : ∀ p, k.frontier < p → i'.callback p = i.callback p)
    (hr : Relaying ((es.filterMap (accepted b)).map word ++ ((accepted b (k, a, o)).toList).map word)
      (es.filterMap (init_fetch b) ++ (init_fetch b (k, a, o)).toList)
      (es.filterMap (init_send b) ++ (init_send b (k, a, o)).toList) (k'.procs b).sigq (k'.handlers b) i') :
    InitRelay b (es ++ [(k, a, o)]) k' i' where
  wellFormed := h.wellFormed.effect hE
  base := (queue_base_effect hE).trans h.base
  not_handler := by
    have hl : b ≤ k.frontier := h.base ▸ h.wellFormed.le h.wellFormed.base_live
    exact (h.wellFormed.sameRole hE hl).isHandler.trans h.not_handler
  locked := h.locked.effect h.wellFormed hE
  own _ hp := hm.own h.wellFormed h.locked hE h.empty h.own hp
  fresh p hp := by
    have hlt := Nat.lt_of_le_of_lt (frontier_le hE) hp
    exact (hi p hlt).trans (h.fresh p hlt)
  relaying := by
    rw [Lib.filterMap_snoc, Lib.filterMap_snoc, Lib.filterMap_snoc, List.map_append]
    exact hr

/-- **Something happens that is not of the program.** -/
theorem InitRelay.other (h : InitRelay b es k i) (hm : HookMail k b a o (k'.procs b).sigq (k'.handlers b))
    (hE : Effect k a o k') (hn : a.isInterrupt = true ∨ signal_owner k ≠ b)
    (hC : accepted b (k, a, o) ≠ none → (k.procs b).sigq.signal_callback ≠ 0) :
    InitRelay b (es ++ [(k, a, o)]) k' i := by
  obtain ⟨hf, hs⟩ := init_other (o := o) hn
  refine h.step hm hE (fun _ _ => rfl) ?_
  rw [hf, hs]
  simp only [Option.toList_none, List.append_nil]
  rcases hm.other hn h.not_handler hC with ⟨ha, hq, hH⟩ | ⟨s, p, ha, hq, hH, hl, hnew⟩
  · rw [ha, hq, hH]
    simpa using h.relaying
  · rw [ha, hq, hH]
    refine h.relaying.post hl (fun hp => ?_) (h.fresh p hnew)
    exact Nat.not_lt.2 (h.wellFormed.le hp.1) hnew

/-- An action that neither sends, reads, hooks nor exits. -/
theorem HookMail.plain (hm : HookMail k b a o q H) (hs : a.sends k = none) (hp : a.plain = true)
    (hx : a.exits = false) : accepted b (k, a, o) = none ∧ q = (k.procs b).sigq ∧ H = k.handlers b := by
  have hacc : accepted b (k, a, o) = none := accepted_eq_none (by simp [sends_to, hs])
  cases hm with
  | same => exact ⟨hacc, rfl, rfl⟩
  | hook | empty | pop => cases hp
  | queued h | handled h =>
    rw [hacc] at h
    cases h
  | exited h =>
    rw [hx] at h
    cases h

/-- **A call of `main`.** -/
theorem InitRelay.main_call (h : InitRelay b es k i) (hm : HookMail k b a o (k'.procs b).sigq (k'.handlers b))
    (hE : Effect k a o k') (hc : k.current_task = b) (ha : i.main.call cb = some a) :
    InitRelay b (es ++ [(k, a, o)]) k' (i.answered o) := by
  have hcb : ∀ p, k.frontier < p → (i.answered o).callback p = i.callback p := fun p _ => by
    unfold Initd.answered
    split <;> rfl
  refine h.step hm hE hcb ?_
  have hmove : ∀ {q'}, (∀ ws, Holds (k.procs b).sigq ws → Holds q' ws) →
      Relaying ((es.filterMap (accepted b)).map word) (es.filterMap (init_fetch b)) (es.filterMap (init_send b)) q'
        (k.handlers b) (i.answered o) := by
    intro q' hq
    have hshell := h.relaying.shell
    refine h.relaying.main hq ?_ ?_ ?_ ?_ <;> unfold Initd.answered <;> cases hmain : i.main <;> simp [hshell, hmain]
  generalize (k'.procs b).sigq = q at hm ⊢
  generalize k'.handlers b = H at hm ⊢
  cases hmain : i.main with
  | con_out_banner =>
    rw [hmain] at ha
    obtain rfl := Option.some.inj ha
    obtain ⟨hacc, rfl, rfl⟩ := hm.plain rfl rfl rfl
    rw [hacc]
    simpa [init_fetch, init_send] using hmove fun _ h => h
  | con_out_starting =>
    rw [hmain] at ha
    obtain rfl := Option.some.inj ha
    obtain ⟨hacc, rfl, rfl⟩ := hm.plain rfl rfl rfl
    rw [hacc]
    simpa [init_fetch, init_send] using hmove fun _ h => h
  | psignal_hook =>
    rw [hmain] at ha
    obtain rfl := Option.some.inj ha
    have hacc : accepted b (k, .psignal_hook cb, o) = none := accepted_eq_none rfl
    rw [hacc]
    cases hm with
    | same hsp => exact absurd hc (hsp.hook _ rfl)
    | hook => simpa [init_fetch, init_send] using hmove fun _ h => h.hook cb
    | queued h | handled h =>
      rw [hacc] at h
      cases h
    | exited hx => cases hx
  | service_create =>
    rw [hmain] at ha
    obtain rfl := Option.some.inj ha
    obtain ⟨hacc, rfl, rfl⟩ := hm.plain rfl rfl rfl
    rw [hacc]
    simpa [init_fetch, init_send] using hmove fun _ h => h
  | spin =>
    rw [hmain] at ha
    cases ha

/-- **A call of a handler.** -/
theorem InitRelay.handler_call (h : InitRelay b es k i)
    (hm : HookMail k b a o (k'.procs b).sigq (k'.handlers b)) (hE : Effect k a o k')
    (hp : k.current_task ∈ k.handlers b) (ha : (i.callback k.current_task).call = some a)
    (hC : InitRelies b (k, i) (k, a, o)) :
    InitRelay b (es ++ [(k, a, o)]) k' (i.goto k.current_task ((i.callback k.current_task).next o)) := by
  have howner := owner_of_handler hp
  refine h.step hm hE (fun p hlt => Initd.goto_of_ne fun he => ?_) ?_
  · exact Nat.not_lt.2 h.wellFormed.current_le (he ▸ hlt)
  have hown := h.own _ hp
  have hrun := h.relaying
  generalize (k'.procs b).sigq = q at hm ⊢
  generalize k'.handlers b = H at hm ⊢
  cases hc : i.callback k.current_task with
  | psignal_fetch =>
    rw [hc] at ha
    obtain rfl := Option.some.inj ha
    have hacc : accepted b (k, .psignal_read, o) = none := accepted_eq_none rfl
    have hfetch : init_fetch b (k, .psignal_read, o) = some o := if_pos howner
    have hsend : init_send b (k, .psignal_read, o) = none := rfl
    rw [hacc, hfetch, hsend]
    cases hm with
    | same hsp => exact absurd howner (hsp.read rfl)
    | empty _ h0 => exact absurd (h0.symm.trans hown) (by decide)
    | pop _ _ hword =>
      rw [hword]
      simpa using hrun.fetch hp hc
    | queued h | handled h =>
      rw [hacc] at h
      cases h
    | exited hx => cases hx
  | psignal_send dest payload =>
    rw [hc] at ha
    obtain rfl := Option.some.inj ha
    have hfetch : init_fetch b (k, .psignal_send dest payload, o) = none := rfl
    have hsend : init_send b (k, .psignal_send dest payload, o) = some (dest, payload) := if_pos howner
    have hsent := hrun.send hp hc
    rw [hfetch, hsend]
    cases hm with
    | same hsp =>
      rw [hsp.accepted]
      simpa using hsent
    | queued hacc _ hcb => exact absurd hcb (hC.hooked (by rw [hacc]; nofun))
    | @handled _ _ _ r hacc hopen _ hnew =>
      -- a signal to itself
      rw [hacc]
      have hr : r ∉ k.handlers b := fun hr => Nat.not_lt.2 (h.wellFormed.le hr.1) hnew
      have hstart : (i.goto k.current_task .mutex_release).callback r = .mutex_acquire := by
        have hne : r ≠ k.current_task := fun he => Nat.not_lt.2 h.wellFormed.current_le (he ▸ hnew)
        rw [Initd.goto_of_ne hne]
        exact h.fresh r hnew
      simpa using hsent.post hopen.unlocked hr hstart
    | exited hx => cases hx
  | exit =>
    rw [hc] at ha
    obtain rfl := Option.some.inj ha
    have hacc : accepted b (k, .exit, o) = none := accepted_eq_none rfl
    have hgone : Relaying _ _ _ _ _ (i.goto k.current_task .exit) :=
      hrun.inside (p := k.current_task) (c := .exit) (by rw [hc]) (by rw [hc]) (by rw [hc]) trivial
    rw [hacc]
    cases hm with
    | same hsp =>
      have hr := hC.exits rfl hp.2.1 hp.2.2
      rw [hsp.exit rfl hp] at hr
      cases hr
    | exited => simpa [init_fetch, init_send] using hgone.exit Initd.goto_self
    | queued h | handled h =>
      rw [hacc] at h
      cases h
  | mutex_acquire | shell_pid | mutex_release =>
    rw [hc] at ha
    cases ha

/-- **A step of a handler alone.** -/
theorem InitRelay.alone (h : InitRelay b es k i) (hp : k.current_task ∈ k.handlers b)
    (ha : i.alone k.current_task = some i') : InitRelay b es k i' := by
  have hrun := h.relaying
  have hfresh : ∀ {j : Initd} {c}, j.callback = i.callback → ∀ p, k.frontier < p →
      (j.goto k.current_task c).callback p = .mutex_acquire := by
    intro j c hj p hlt
    have hne : p ≠ k.current_task := fun he => Nat.not_lt.2 h.wellFormed.current_le (he ▸ hlt)
    rw [Initd.goto_of_ne hne, hj]
    exact h.fresh p hlt
  unfold Initd.alone at ha
  cases hc : i.callback k.current_task with
  | mutex_acquire =>
    rw [hc] at ha
    obtain rfl := Option.some.inj ha
    by_cases hl : i.psignal_lock = MUTEX_UNLOCKED
    · rw [(mutex_acquire_fst _).2 hl]
      exact { h with fresh := hfresh rfl, relaying := hrun.acquire hp hc hl }
    · rw [Bool.eq_false_iff.2 (mt (mutex_acquire_fst _).1 hl)]
      exact { h with fresh := hfresh rfl, relaying := hrun.again hc hl }
  | shell_pid psignal =>
    rw [hc] at ha
    obtain rfl := Option.some.inj ha
    have hkey := hrun.ok _ hp
    rw [hc] at hkey
    have hpayload : (PSIGNAL_EXTRACT_SIGPAYLOAD psignal).toUInt32.toUInt64 = PSIGNAL_KEYSTROKE := by
      rw [beq_iff_eq.1 hkey]
      decide
    exact { h with
      fresh := hfresh rfl
      relaying := hrun.inside (by rw [hc]; rfl) (by rw [hc]; rfl) (by rw [hc]; rfl) ⟨.inr rfl, hpayload⟩ }
  | mutex_release =>
    rw [hc] at ha
    obtain rfl := Option.some.inj ha
    exact { h with fresh := hfresh rfl, relaying := hrun.release hp hc }
  | psignal_fetch | psignal_send | exit =>
    rw [hc] at ha
    cases ha

/-- What a step of the kernel does to the queue of the program. -/
theorem InitRelay.hookMail (h : InitRelay b es k i) (hS : Step k (a, o) k') :
    HookMail k b a o (k'.procs b).sigq (k'.handlers b) := by
  have hl : k.Live b := h.base ▸ h.wellFormed.base_live
  have hfirst : k.queue.find? (fun p => (k.procs p).pid == (k.procs b).pid) = some b := by
    have hpid := h.wellFormed.init
    have hfind := h.wellFormed.find_init
    rw [h.base] at hpid hfind
    rwa [hpid]
  exact Iridium.hookMail h.wellFormed (h.wellFormed.le hl) h.not_handler (fun _ => hfirst) hS

/-- **One step of the kernel.** -/
theorem InitRelay.called (h : InitRelay b es k i) (hC : InitRelies b (k, i) (k, a, o))
    (hR : Relays b cb (k, i) (some (k, a, o)) (k', i')) : InitRelay b (es ++ [(k, a, o)]) k' i' := by
  obtain ⟨⟨-, hS⟩, hi⟩ := hR
  have hE := hS.effect h.wellFormed
  have hm := h.hookMail hS
  dsimp only at hi
  split at hi
  next hn =>
    subst hi
    exact h.other hm hE hn hC.hooked
  next hn =>
    rw [not_or, Bool.not_eq_true, not_not] at hn
    split at hi
    next hc =>
      obtain ⟨ha, rfl⟩ := hi
      exact h.main_call hm hE hc ha
    next hc =>
      obtain ⟨ha, rfl⟩ := hi
      exact h.handler_call hm hE (handler_of_owner (h.wellFormed.running (hS.1.runs hn.1)) hn.2 hc) ha hC

/-- **One step.** -/
theorem InitRelay.relays {s s' : Kernel × Initd} {e : Option Entry} {es : List (Option Entry)}
    (h : InitRelay b (es.filterMap id) s.1 s.2) (hC : ∀ f, e = some f → InitRelies b s f)
    (hR : Relays b cb s e s') : InitRelay b ((es ++ [e]).filterMap id) s'.1 s'.2 := by
  obtain ⟨_, i⟩ := s
  obtain ⟨k', i'⟩ := s'
  rw [Lib.filterMap_snoc]
  cases e with
  | none =>
    obtain ⟨rfl, -, hp, ha⟩ := hR
    simpa using h.alone hp ha
  | some e =>
    obtain ⟨k, a, o⟩ := e
    obtain rfl : k = _ := hR.1.1
    exact h.called (hC _ rfl) hR

end Relay

/-! ### Runs that are computed -/

/-- A call of the program, and what it has with the answer. -/
def init_called (b : ℕ) (s : Kernel × Initd) (a : Option Action) (answered : UInt64 → Initd) :
    Kern (Kernel × Initd) :=
  match a with
  | none => .error .stopped
  | some a => do
    let (o, k) ← act s.1 a
    if a.isInterrupt = false ∧ InitRelies b s (s.1, a, o) then .ok (k, answered o) else .error .stopped

/-- The next step of the program: one of its own, or a call. -/
def init_next (b : ℕ) (cb : UInt64) (s : Kernel × Initd) : Kern (Kernel × Initd) :=
  if s.1.spinning = false ∧ signal_owner s.1 = b ∧ s.1.Live s.1.current_task then
    if s.1.current_task = b then init_called b s (s.2.main.call cb) s.2.answered
    else
      match s.2.alone s.1.current_task with
      | some i => .ok (s.1, i)
      | none => init_called b s (s.2.callback s.1.current_task).call fun o =>
          s.2.goto s.1.current_task ((s.2.callback s.1.current_task).next o)
  else .error .stopped

/-- The interrupts taken from `s`, with the next step of the program for `none`. -/
def init_drives (b : ℕ) (cb : UInt64) (s : Kernel × Initd) : List (Option Action) → Kern (Kernel × Initd)
  | [] => .ok s
  | some a :: as => do
    let (o, k) ← act s.1 a
    if a.isInterrupt = true ∧ InitRelies b s (s.1, a, o) then init_drives b cb (k, s.2) as else .error .stopped
  | none :: as => do init_drives b cb (← init_next b cb s) as

theorem init_called_ok {b : ℕ} {s s' : Kernel × Initd} {a : Option Action} {answered : UInt64 → Initd}
    (h : init_called b s a answered = .ok s') (hs : s.1.spinning = false) : ∃ a' o, a = some a' ∧
      Step s.1 (a', o) s'.1 ∧ a'.isInterrupt = false ∧ InitRelies b s (s.1, a', o) ∧ s'.2 = answered o := by
  unfold init_called at h
  split at h
  next => cases h
  next a =>
    obtain ⟨⟨o, k⟩, ha, h⟩ := bind_ok.1 h
    dsimp only at h
    split at h
    next hc =>
      obtain rfl := Except.ok.inj h
      exact ⟨a, o, rfl, ⟨fun hsp => absurd (hs.symm.trans hsp) nofun, ha⟩, hc.1, hc.2, rfl⟩
    next => cases h

theorem init_next_ok {b : ℕ} {cb : UInt64} {s s' : Kernel × Initd} (h : init_next b cb s = .ok s') :
    ∃ e, (∀ f, e = some f → InitRelies b s f) ∧ Relays b cb s e s' := by
  unfold init_next at h
  split at h
  next hc =>
    obtain ⟨hs, ho, hl⟩ := hc
    split at h
    next hb =>
      obtain ⟨a, o, ha, hS, hi, hr, hs'⟩ := init_called_ok h hs
      refine ⟨some (s.1, a, o), by rintro _ ⟨rfl⟩; exact hr, ⟨rfl, hS⟩, ?_⟩
      rw [if_neg (by simp [hi, ho]), if_pos hb]
      exact ⟨ha, hs'⟩
    next hb =>
      split at h
      next i halone =>
        obtain rfl := Except.ok.inj h
        have hp := handler_of_owner hl ho hb
        exact ⟨none, by rintro _ ⟨⟩, rfl, hs, hp, halone⟩
      next =>
        obtain ⟨a, o, ha, hS, hi, hr, hs'⟩ := init_called_ok h hs
        refine ⟨some (s.1, a, o), by rintro _ ⟨rfl⟩; exact hr, ⟨rfl, hS⟩, ?_⟩
        rw [if_neg (by simp [hi, ho]), if_neg hb]
        exact ⟨ha, hs'⟩
  next => cases h

theorem init_drives_ok {b : ℕ} {cb : UInt64} {s s' : Kernel × Initd} {as : List (Option Action)}
    (h : init_drives b cb s as = .ok s') : ∃ es,
      Lib.Run (Relays b cb) (fun s e => ∀ f, e = some f → InitRelies b s f) s es s' := by
  induction as generalizing s with
  | nil =>
    obtain rfl := Except.ok.inj h
    exact ⟨[], .nil⟩
  | cons c as ih =>
    cases c with
    | none =>
      obtain ⟨s₁, hn, h⟩ := bind_ok.1 h
      obtain ⟨es, hr⟩ := ih h
      obtain ⟨e, hC, hR⟩ := init_next_ok hn
      exact ⟨_, (Lib.Run.single hC hR).trans hr⟩
    | some a =>
      obtain ⟨⟨o, k⟩, ha, h⟩ := bind_ok.1 h
      dsimp only at h
      split at h
      next hc =>
        obtain ⟨es, hr⟩ := ih h
        have hR : Relays b cb s (some (s.1, a, o)) (k, s.2) := ⟨⟨rfl, fun _ => hc.1, ha⟩, by rw [if_pos (.inl hc.1)]⟩
        exact ⟨_, (Lib.Run.single (by rintro _ ⟨rfl⟩; exact hc.2) hR).trans hr⟩
      next => cases h

/-! ### Results -/

theorem InitRelay.relayed {b : ℕ} {es : List Entry} {k : Kernel} {i : Initd} (h : InitRelay b es k i) :
    Relayed b es k i := by
  obtain ⟨ws, hq, hw, hu⟩ := h.relaying.waiting
  obtain ⟨n, hn, heq⟩ := h.relaying.hands
  refine ⟨⟨ws.map taken, ?_, hw⟩, ⟨n, ?_, heq⟩, h.relaying.sent, fun p hp q hq hi hj => ?_, ?_, fun hno => ?_⟩
  · cases hq <;> simp
  · cases hn <;> simp
  · exact h.relaying.mutex.one p q ⟨hp, hi⟩ ⟨hq, hj⟩
  · exact ⟨h.relaying.held, fun ⟨p, hp, hin⟩ => h.relaying.mutex.held_of ⟨hp, hin⟩⟩
  · have hempty : ∀ p, p ∉ k.handlers b := Set.eq_empty_iff_forall_notMem.1 hno
    constructor
    · cases hu with
      | nobody => simpa using hw
      | one hp => exact absurd hp (hempty _)
    · cases hn with
      | nobody => exact heq
      | one hp => exact absurd hp (hempty _)

theorem Booted.relay {k : Kernel} (h : Booted k) (hw : k.WellFormed) : InitRelay k.queue_base [] k .start := by
  have hno : ∀ p, p ∉ k.handlers k.queue_base := fun p hp => h.no_handler hp.1 hp.2.1
  have hbase : (k.procs k.queue_base).sigq.next_index = 0 := h.current_task ▸ h.next_index
  refine ⟨hw, rfl, h.current_task ▸ h.not_handler, h.handlersLocked, fun p hp => absurd hp (hno p), fun _ _ => rfl,
    ⟨[], .empty hbase, rfl, .nobody fun p hp => absurd hp (hno p)⟩, ⟨0, .nobody fun p hp => absurd hp (hno p), rfl⟩,
    .nobody fun p hp => hno p hp.1, fun hl => absurd rfl hl, fun _ => rfl, nofun, fun p hp => absurd hp (hno p)⟩

/-- **In every run** the program passes on what comes in. -/
theorem keystrokes_relayed {k₀ k : Kernel} {cb : UInt64} {es : List (Option Entry)} {i : Initd} (h₀ : Started k₀)
    (h : Lib.Run (Relays k₀.queue_base cb) (fun s e => ∀ f, e = some f → InitRelies k₀.queue_base s f)
      (k₀, .start) es (k, i)) : Relayed k₀.queue_base (es.filterMap id) k i := by
  obtain ⟨hw, hb⟩ := h₀.booted
  exact (h.history (I := fun es (s : Kernel × Initd) => InitRelay k₀.queue_base (es.filterMap id) s.1 s.2) (hb.relay hw)
    fun hI hC hS => hI.relays hC hS).relayed

/-- A machine whose first line is below the screen, where nothing is drawn. -/
def dark_machine : Kernel := { machine with console := { machine.console with y := 0xFFFFFFF0 } }

/-- The program starts, a key is pressed, and its handler passes it on to the shell. -/
theorem keystrokes_relayed_one : ∃ k₀ k es i, Started k₀ ∧
    Lib.Run (Relays k₀.queue_base 0x5000) (fun s e => ∀ f, e = some f → InitRelies k₀.queue_base s f)
      (k₀, .start) es (k, i) ∧ i.shell_pid = 2 ∧ Relayed k₀.queue_base (es.filterMap id) k i := by
  have ht : answers (start dark_machine 0x1234 >>= fun k => init_drives k.queue_base 0x5000 (k, .start)
      [none, none, none, none, some (.keyboard 0x1E 0), some (.timer quietTick), some (.timer quietTick),
        none, none, none, none, none, none]) (fun s => decide (s.2.shell_pid = 2)) = true := by decide +kernel
  obtain ⟨s, hs, ht⟩ := answers_iff.1 ht
  obtain ⟨k₀, h₀, hs⟩ := bind_ok.1 hs
  obtain ⟨es, hr⟩ := init_drives_ok hs
  have hstart : Started k₀ := ⟨dark_machine, _, ⟨rfl, rfl, rfl, rfl, rfl, rfl, rfl⟩, h₀⟩
  exact ⟨k₀, s.1, es, s.2, hstart, hr, of_decide_eq_true ht, keystrokes_relayed hstart hr⟩

end Iridium
