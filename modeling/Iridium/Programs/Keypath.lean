import Iridium.Programs.Shelld

/-!
# From the keyboard to the shell

The way of a keystroke through the system: the keyboard interrupt stores it and signals init, a handler of init
passes the signal on to the shell, and a handler of the shell asks the keyboard service for it. The kernel, init and
the shell are run together, their processes in any interleaving with each other and with all others (`KeySystem`).

One keystroke is stored at most, and while it is, exactly one handler is on its way with it (`carried`): it is to
fetch the signal for init or for the shell, or it has fetched it and is to pass it on or to ask. From this the rest
follows. When a key is reported, init is not busy; when init passes a signal on, the shell takes it; when the shell
asks, there is a keystroke. So the shell is told of every key that was reported, in order and once.
-/

namespace Iridium

/-! ### The system -/

/-- **The kernel, init and the shell**: init is the process at `b` and its handlers, the shell that at `s` and its
handlers. -/
def KeySystem (b s : ℕ) (cb cb' : UInt64) (x : Kernel × Initd × Shelld) (e : Option Entry)
    (y : Kernel × Initd × Shelld) : Prop :=
  Relays b cb (x.1, x.2.1) e (y.1, y.2.1) ∧ ShellRuns s cb' x.2.2 e y.2.2

/-- The shell has installed its callback, and init has its PID. -/
structure ShellReady (s : ℕ) (k : Kernel) (i : Initd) : Prop where
  live : k.Live s
  pid : (k.procs s).pid = i.shell_pid
  callback : (k.procs s).sigq.signal_callback ≠ 0
  main : i.main = .spin

instance (s : ℕ) (k : Kernel) (i : Initd) : Decidable (ShellReady s k i) :=
  decidable_of_iff
    (k.Live s ∧ (k.procs s).pid = i.shell_pid ∧ (k.procs s).sigq.signal_callback ≠ 0 ∧ i.main = .spin)
    ⟨fun h => ⟨h.1, h.2.1, h.2.2.1, h.2.2.2⟩, fun h => ⟨h.live, h.pid, h.callback, h.main⟩⟩

/-- **What the system relies on**, beside what init does: the shell is the first process with its PID; only the
keyboard signals init, with a process of a positive PID interrupted, and not before the shell is ready; no process
but those of init signals the shell, and none but those of the shell asks the keyboard service. -/
structure KeyRelies (b s : ℕ) (x : Kernel × Initd × Shelld) (e : Entry) : Prop where
  init : InitRelies b (x.1, x.2.1) e
  first : x.1.Live s → x.1.queue.find? (fun p => (x.1.procs p).pid == (x.1.procs s).pid) = some s
  not_handler : x.1.Live s → (x.1.procs s).isHandler = false
  pressed : accepted b e ≠ none → e.2.1.isInterrupt = true ∧ 0 < sender_pid x.1 ∧ ShellReady s x.1 x.2.1
  relayed : accepted s e ≠ none → e.2.1.isInterrupt = false → signal_owner x.1 = b
  served : e.2.1.fetches_key = true → signal_owner x.1 = s

/-! ### What comes in and what goes out -/

/-- The keystroke that is reported. -/
def key_reported (e : Entry) : Option UInt64 :=
  match e.2.1 with
  | .keyboard port beyond => if reports e.1 port beyond then some (packet port beyond).toUInt64 else none
  | _ => none

/-- The handlers that are on their way with a keystroke. -/
def carriers (b s : ℕ) (k : Kernel) (i : Initd) (h : Shelld) : Set ℕ :=
  {p ∈ k.handlers b | (i.callback p).unread = true ∨ (i.callback p).hand = true} ∪
    (h.before (k.handlers s) .psignal_fetch ∪ h.before (k.handlers s) .sysreq)

/-- **The keystrokes get through**: the shell is told of those that are reported, in order and once, but for the one
that is stored still; whatever init passes on is accepted for the shell; and a stored keystroke has one handler on
its way, which nobody is on when there is none. -/
structure KeysThrough (b s : ℕ) (es : List Entry) (k : Kernel) (i : Initd) (h : Shelld) : Prop where
  told : es.filterMap key_reported = es.filterMap (shell_told s) ++ key_pending k
  passed : ∀ e ∈ es, init_send b e ≠ none → accepted s e ≠ none
  carried : (carriers b s k i h).ncard = (key_pending k).length

/-- **What a run has done for a keystroke.** -/
structure KeyRun (b s : ℕ) (es : List Entry) (k : Kernel) (i : Initd) (h : Shelld) : Prop where
  init : InitRelay b es k i
  shell : ShellServes s es k h
  tidy : (k.procs b).sigq.Tidy
  /-- Every signal that comes to init tells of a keystroke. -/
  keys : ∀ w ∈ es.filterMap (accepted b), isKeystroke (taken (word w)) = true
  served : es.filterMap key_stored = es.filterMap key_served ++ key_pending k
  stored : es.filterMap key_reported = es.filterMap key_stored
  came : (es.filterMap (accepted b)).length = (es.filterMap key_stored).length
  agreed : (es.filterMap (accepted s)).length = (es.filterMap (init_send b)).length
  told : es.filterMap (shell_told s) = es.filterMap key_served
  ready : es.filterMap (accepted b) ≠ [] → ShellReady s k i
  /-- Who passes a signal on passes it on to the shell. -/
  aimed : ∀ p ∈ k.handlers b, ∀ dest payload, i.callback p = .psignal_send dest payload → dest = i.shell_pid
  passed : ∀ e ∈ es, init_send b e ≠ none → accepted s e ≠ none

section Keypath

variable {k k' : Kernel} {a : Action} {o cb cb' : UInt64} {b s : ℕ} {es : List Entry} {i i' : Initd} {h h' : Shelld}
  {H : Set ℕ} {ws : List UInt64} {n : ℕ} {q : SignalQueue} {dest : PID_T} {payload : UInt32}

/-! ### One keystroke at most -/

theorem ncard_nobody {P : ℕ → Prop} (hno : ∀ p ∈ H, ¬P p) : {p ∈ H | P p}.ncard = 0 := by
  have hempty : {p ∈ H | P p} = ∅ := Set.eq_empty_of_forall_notMem fun p hp => hno p hp.1 hp.2
  rw [hempty, Set.ncard_empty]

theorem ncard_one {P : ℕ → Prop} {u : ℕ} (hu : u ∈ H) (hP : P u) (hone : ∀ p ∈ H, P p → p = u) :
    {p ∈ H | P p}.ncard = 1 := by
  have hsingle : {p ∈ H | P p} = {u} := by
    refine Set.ext fun p => ⟨fun hp => hone p hp.1 hp.2, fun hp => ?_⟩
    rw [Set.mem_singleton_iff.1 hp]
    exact ⟨hu, hP⟩
  rw [hsingle, Set.ncard_singleton]

theorem Unread.ncard (hu : Unread H i ws) : {p ∈ H | (i.callback p).unread = true}.ncard = ws.length := by
  cases hu with
  | nobody hno => exact ncard_nobody fun p hp => Bool.eq_false_iff.1 (hno p hp)
  | one hu hun huniq => exact ncard_one hu hun huniq

theorem InHand.ncard (hn : InHand H i n) (hone : ∀ p ∈ H, ∀ r ∈ H, (i.callback p).hand = true →
    (i.callback r).hand = true → p = r) : {p ∈ H | (i.callback p).hand = true}.ncard = n := by
  cases hn with
  | nobody hno => exact ncard_nobody fun p hp => Bool.eq_false_iff.1 (hno p hp)
  | one hu hh => exact ncard_one hu hh fun p hp hp' => hone p hp _ hu hp' hh

theorem key_pending_length_le : (key_pending k).length ≤ 1 := by
  unfold key_pending
  split <;> simp

/-- **The keystroke that is stored** is with init or with the shell. -/
theorem KeyRun.token (hI : KeyRun b s es k i h) : ∃ ws n, Holds (k.procs b).sigq ws ∧ Unread (k.handlers b) i ws ∧
    InHand (k.handlers b) i n ∧ (key_pending k).length = ws.length + n +
      (h.before (k.handlers s) .psignal_fetch).ncard + (h.before (k.handlers s) .sysreq).ncard := by
  obtain ⟨ws, hq, hw, hu⟩ := hI.init.relaying.waiting
  obtain ⟨n, hn, heq⟩ := hI.init.relaying.hands
  refine ⟨ws, n, hq, hu, hn, ?_⟩
  -- all that init has fetched were keystrokes
  have hall : (es.filterMap (init_fetch b)).countP isKeystroke = (es.filterMap (init_fetch b)).length := by
    rw [List.countP_eq_length]
    intro w hw'
    have hmem : w ∈ ((es.filterMap (accepted b)).map word).map taken := hw ▸ List.mem_append_left _ hw'
    obtain ⟨v, hv, rfl⟩ := List.mem_map.1 hmem
    obtain ⟨u, hu, rfl⟩ := List.mem_map.1 hv
    exact hI.keys u hu
  have hlen := congrArg List.length hw
  have hserved := congrArg List.length hI.served
  have htold := congrArg List.length hI.told
  have hcame := hI.came
  have hacc := hI.agreed
  have hcount := hI.shell.count
  simp only [List.length_map, List.length_append] at hlen hserved
  omega

/-- When no keystroke is stored, init takes a signal. -/
theorem KeyRun.opened (hI : KeyRun b s es k i h) (hz : k.last_keystroke = 0) :
    Accepts k b ∧ init_busy k = false := by
  obtain ⟨ws, n, hq, -, -, htoken⟩ := hI.token
  have hzero : (key_pending k).length = 0 := by simp [key_pending, hz]
  have hws : ws = [] := List.length_eq_zero_iff.1 (by omega)
  subst hws
  have hidx : (k.procs b).sigq.next_index = 0 := by
    cases hq with
    | empty h0 => exact h0
  have hopen := hI.tidy.index_iff.1 hidx
  refine ⟨⟨by rw [hidx]; decide, hopen⟩, ?_⟩
  unfold init_busy
  rw [hI.init.base, beq_eq_false_iff_ne.2 hopen, Bool.and_false]

/-- A handler with a keystroke can pass it on: the shell is ready, and takes a signal. -/
theorem KeyRun.handing (hI : KeyRun b s es k i h) (hh : k.Live s → (k.procs s).isHandler = false) {p : ℕ}
    (hp : p ∈ k.handlers b) (hhand : (i.callback p).hand = true) : ShellReady s k i ∧ Accepts k s := by
  obtain ⟨ws, n, -, -, hn, htoken⟩ := hI.token
  have hle := key_pending_length_le (k := k)
  have hone : n = 1 := by
    cases hn with
    | nobody hno =>
      rw [hno p hp] at hhand
      cases hhand
    | one => rfl
  -- the keystroke was told to init
  have hready : ShellReady s k i := hI.ready fun hnil => by
    have hcame := hI.came
    have hserved := congrArg List.length hI.served
    rw [hnil] at hcame
    simp only [List.length_append, List.length_nil] at hcame hserved
    omega
  have hanswer := hI.shell.answering hready.live (hh hready.live)
  have hidx : (k.procs s).sigq.next_index = 0 := by
    have hwait := hanswer.waiting
    exact UInt8.toNat_inj.1 (by rw [hwait]; show _ = 0; omega)
  exact ⟨hready, by rw [hidx]; decide, hanswer.tidy.index_iff.1 hidx⟩

/-! ### One step -/

/-- A call of `main` of init neither reads, sends, asks nor exits. -/
theorem InitMain.call_plain {m : InitMain} (hc : m.call cb = some a) : a.exits = false ∧ a.fetches_key = false ∧
    a ≠ .psignal_read ∧ a.sends k = none := by
  cases m with
  | spin => cases hc
  | _ =>
    obtain rfl := Option.some.inj hc
    exact ⟨rfl, rfl, nofun, rfl⟩

theorem init_send_eq_some (hn : init_send b (k, a, o) ≠ none) :
    ∃ dest payload, a = .psignal_send dest payload ∧ signal_owner k = b := by
  cases a with
  | psignal_send dest payload => exact ⟨dest, payload, rfl, by_contra fun ho => hn (if_neg ho)⟩
  | _ => exact absurd rfl hn

/-- What init sends, a handler of it sends. -/
theorem Relays.sends (hR : Relays b cb (k, i) (some (k, a, o)) (k', i')) (hw : k.WellFormed)
    (hn : init_send b (k, a, o) ≠ none) : ∃ dest payload, a = .psignal_send dest payload ∧
      k.current_task ∈ k.handlers b ∧ i.callback k.current_task = .psignal_send dest payload := by
  obtain ⟨⟨-, hS⟩, hi⟩ := hR
  obtain ⟨dest, payload, rfl, howner⟩ := init_send_eq_some hn
  refine ⟨dest, payload, rfl, ?_⟩
  dsimp only at hi
  rw [if_neg (by simp [Action.isInterrupt, howner])] at hi
  split at hi
  next => exact absurd (InitMain.call_plain (k := k) hi.1).2.2.2 (Option.some_ne_none _)
  next hc =>
    refine ⟨handler_of_owner (hw.running (hS.1.runs rfl)) howner hc, ?_⟩
    cases hcb : i.callback k.current_task <;> rw [hcb] at hi <;> cases hi.1
    rfl

/-- **What init passes on is accepted** for the shell. -/
theorem KeyRun.accepts (hI : KeyRun b s es k i h) (hC : KeyRelies b s (k, i, h) (k, a, o))
    (hR : Relays b cb (k, i) (some (k, a, o)) (k', i')) (hn : init_send b (k, a, o) ≠ none) :
    accepted s (k, a, o) ≠ none := by
  have hw := hI.init.wellFormed
  obtain ⟨dest, payload, rfl, hp, hcb⟩ := hR.sends hw hn
  obtain ⟨hready, hacc⟩ := hI.handing hC.not_handler hp (by rw [hcb]; rfl)
  have hdest : dest = (k.procs s).pid := (hI.aimed _ hp dest payload hcb).trans hready.pid.symm
  have hrecipient : recipient k dest = some s := recipient_eq_some (hdest ▸ hC.first hready.live) hacc
  have hsends : Action.sends k (.psignal_send dest payload) = some (k.keyed k.last_keystroke, dest, payload) := rfl
  rw [accepted_of_recipient hw hR.1.2 hsends hrecipient]
  exact Option.some_ne_none _

/-- No interrupt sends the shell a signal. -/
theorem KeyRun.not_interrupt (hI : KeyRun b s es k i h) (hsb : s ≠ b)
    (hf : k.Live s → k.queue.find? (fun p => (k.procs p).pid == (k.procs s).pid) = some s)
    (hn : accepted s (k, a, o) ≠ none) : a.isInterrupt = false := by
  obtain ⟨w, hacc⟩ := Option.ne_none_iff_exists'.1 hn
  obtain ⟨hl, hto⟩ := live_of_accepted hacc
  cases a with
  | timer t => cases hto
  | keyboard port beyond =>
    have hpid : (1 : PID_T) = (k.procs s).pid := by
      unfold sends_to Action.sends at hto
      dsimp only at hto
      split at hto
      next heq =>
        split at heq
        · obtain ⟨-, rfl, -⟩ := Option.some.inj heq
          exact beq_iff_eq.1 hto
        · cases heq
      next => cases hto
    have hfind := hI.init.wellFormed.find_init
    rw [hpid, hf hl, Option.some.injEq, hI.init.base] at hfind
    exact absurd hfind hsb
  | _ => rfl

/-- **The shell is sent what init passes on**, and nothing else. -/
theorem KeyRun.accepted_iff (hI : KeyRun b s es k i h) (hsb : s ≠ b) (hC : KeyRelies b s (k, i, h) (k, a, o))
    (hR : Relays b cb (k, i) (some (k, a, o)) (k', i')) :
    accepted s (k, a, o) ≠ none ↔ init_send b (k, a, o) ≠ none := by
  refine ⟨fun hn => ?_, hI.accepts hC hR⟩
  have hi := hI.not_interrupt hsb hC.first hn
  have howner := hC.relayed hn hi
  obtain ⟨w, hacc⟩ := Option.ne_none_iff_exists'.1 hn
  have hto := (live_of_accepted hacc).2
  cases a with
  | psignal_send dest payload =>
    rw [show init_send b (k, .psignal_send dest payload, o) = some (dest, payload) from if_pos howner]
    exact Option.some_ne_none _
  | keyboard => cases hi
  | _ => cases hto

/-- The signal of a reported key. -/
theorem sends_keyboard {port beyond : UInt8} (hr : reports k port beyond = true) :
    Action.sends k (.keyboard port beyond) = some (k.keyed (packet port beyond), 1, 0x9961A7A) := if_pos hr

/-- **A key that is reported** is stored, and init is told: it is not busy. -/
theorem KeyRun.stores (hI : KeyRun b s es k i h) (hC : KeyRelies b s (k, i, h) (k, a, o)) (hS : Step k (a, o) k') :
    key_stored (k, a, o) = key_reported (k, a, o) ∧
      (accepted b (k, a, o)).toList.length = (key_reported (k, a, o)).toList.length := by
  have hw := hI.init.wellFormed
  -- nothing but the keyboard signals init
  have hother : (∀ port beyond, a ≠ .keyboard port beyond) → accepted b (k, a, o) = none := fun hn => by
    by_contra hacc
    have hi := (hC.pressed hacc).1
    cases a with
    | keyboard port beyond => exact hn port beyond rfl
    | timer t => exact hacc (accepted_eq_none rfl)
    | _ => cases hi
  cases a with
  | keyboard port beyond =>
    unfold key_stored key_reported
    dsimp only
    cases hr : reports k port beyond with
    | false =>
      rw [accepted_eq_none (by simp [sends_to, Action.sends, hr])]
      exact ⟨rfl, rfl⟩
    | true =>
      obtain ⟨hopen, hbusy⟩ := hI.opened (reports_zero hr)
      have hrecipient : recipient k 1 = some b := recipient_eq_some (hI.init.base ▸ hw.find_init) hopen
      rw [accepted_of_recipient hw hS (sends_keyboard hr) hrecipient, hbusy]
      exact ⟨rfl, rfl⟩
  | _ => exact ⟨rfl, by rw [hother fun _ _ he => by cases he]; rfl⟩

/-- What is accepted is what was sent, under the PID of the sender. -/
theorem accepted_eq {k₁ : Kernel} {dword : UInt32} {w : PID_T × UInt32} (hs : a.sends k = some (k₁, dest, dword))
    (hacc : accepted b (k, a, o) = some w) : w = (sender_pid k, dword) := by
  unfold accepted at hacc
  dsimp only at hacc
  rw [hs] at hacc
  dsimp only at hacc
  split at hacc
  · split at hacc
    · split at hacc
      · exact (Option.some.inj hacc).symm
      · cases hacc
    · cases hacc
  · cases hacc

/-- The signal of a reported key tells of it. -/
theorem KeyRelies.key (hC : KeyRelies b s (k, i, h) (k, a, o)) {w : PID_T × UInt32}
    (hacc : accepted b (k, a, o) = some w) : isKeystroke (taken (word w)) = true := by
  obtain ⟨hi, hpos, -⟩ := hC.pressed (by rw [hacc]; exact Option.some_ne_none _)
  have hto := (live_of_accepted hacc).2
  cases a with
  | keyboard port beyond =>
    cases hr : reports k port beyond with
    | false => simp [sends_to, Action.sends, hr] at hto
    | true =>
      obtain rfl := accepted_eq (sends_keyboard hr) hacc
      have htaken : taken (word (sender_pid k, 0x9961A7A)) = psignal_word (sender_pid k) 0x9961A7A :=
        if_pos (top_bits_untouched hpos _)
      rw [htaken, isKeystroke, extract_payload hpos]
      decide
  | timer t => cases hto
  | _ => cases hi

/-- **Who asks** for a keystroke is a handler of the shell that is to ask. -/
theorem ShellRuns.asks (hr : ShellRuns s cb' h (some (k, a, o)) h') (hw : k.WellFormed) (he : Enabled k a)
    (hf : a.fetches_key = true) (ho : signal_owner k = s) : k.current_task ∈ h.before (k.handlers s) .sysreq := by
  have hi := Action.not_interrupt_of_fetches hf
  by_cases hc : k.current_task = s
  · have hcall := ((ShellRuns.main_iff hi ho hc).1 hr).1
    exact absurd ((ShellMain.call_plain (k := k) hcall).2.1.symm.trans hf) Bool.false_ne_true
  · have hcalls := ((ShellRuns.call_iff hi ho hc).1 hr).1
    refine ⟨handler_of_owner (hw.running (he.runs hi)) ho hc, ?_⟩
    cases hcb : h.callback k.current_task with
    | sysreq => rfl
    | psignal_fetch =>
      rw [hcb] at hcalls
      cases a <;> first | cases hf | cases hcalls
    | answer x =>
      rw [hcb] at hcalls
      cases a <;> first | cases hf | cases hcalls

/-- **When the shell asks**, there is a keystroke. -/
theorem KeyRun.tells (hI : KeyRun b s es k i h) (hC : KeyRelies b s (k, i, h) (k, a, o)) (hS : Step k (a, o) k')
    (hr : ShellRuns s cb' h (some (k, a, o)) h') : shell_told s (k, a, o) = key_served (k, a, o) := by
  cases hf : a.fetches_key with
  | false =>
    rw [shell_told_eq_none (.inl hf)]
    simp [key_served, hf]
  | true =>
    have howner := hC.served hf
    obtain ⟨ws, n, -, -, -, htoken⟩ := hI.token
    have hask := hr.asks hI.init.wellFormed hS.1 hf howner
    have hpos : 0 < (h.before (k.handlers s) .sysreq).ncard :=
      (Set.ncard_pos (Shelld.finite_before (k.finite_handlers s))).2 ⟨_, hask⟩
    have hkey : k.last_keystroke ≠ 0 := fun h0 => by
      have hzero : (key_pending k).length = 0 := by simp [key_pending, h0]
      omega
    obtain ⟨rfl, -⟩ := fetches_key hS.2 hf
    rw [show shell_told s (k, a, k.last_keystroke.toUInt64) = some k.last_keystroke.toUInt64 from
      if_pos ⟨hf, howner⟩]
    simp [key_served, hf, toUInt64_ne_zero hkey]

/-- A handler that reads is to fetch. -/
theorem Relays.reads (hR : Relays b cb (k, i) (some (k, .psignal_read, o)) (k', i')) (hw : k.WellFormed)
    (ho : signal_owner k = b) : k.current_task ∈ k.handlers b ∧ i.callback k.current_task = .psignal_fetch := by
  obtain ⟨⟨-, hS⟩, hi⟩ := hR
  dsimp only at hi
  rw [if_neg (by simp [Action.isInterrupt, ho])] at hi
  split at hi
  next => exact absurd rfl (InitMain.call_plain (k := k) hi.1).2.2.1
  next hc =>
    refine ⟨handler_of_owner (hw.running (hS.1.runs rfl)) ho hc, ?_⟩
    cases hcb : i.callback k.current_task <;> rw [hcb] at hi <;> first | rfl | cases hi.1

/-- **The queue of init** has one signal behind its lock, or none. -/
theorem KeyRun.tidy_step (hI : KeyRun b s es k i h) (hR : Relays b cb (k, i) (some (k, a, o)) (k', i')) :
    (k'.procs b).sigq.Tidy := by
  have hw := hI.init.wellFormed
  have hm := hI.init.hookMail hR.1.2
  generalize (k'.procs b).sigq = q at hm ⊢
  generalize k'.handlers b = H at hm
  cases hm with
  | same | exited => exact hI.tidy
  | hook => exact hI.tidy.congr rfl rfl
  | queued _ hopen => exact hI.tidy.push hopen.unlocked _
  | handled _ hopen => exact hI.tidy.push hopen.unlocked _
  | empty ho h0 =>
    have hown := hI.init.own _ (hR.reads hw ho).1
    exact absurd (h0.symm.trans hown) (by decide)
  | pop ho =>
    obtain ⟨hp, hc⟩ := hR.reads hw ho
    obtain ⟨ws, -, hq, hu, -⟩ := hI.token
    refine hI.tidy.pop ?_
    cases hu with
    | nobody hno => exact absurd (hno _ hp) (by rw [hc]; decide)
    | one =>
      cases hq with
      | one h1 => rw [h1]; decide

/-- **The shell stays ready.** -/
theorem ShellReady.step (h₀ : ShellReady s k i) (hw : k.WellFormed) (hC : KeyRelies b s (k, i, h) (k, a, o))
    (hS : Step k (a, o) k') (hr : ShellRuns s cb' h (some (k, a, o)) h') (hcb : cb' ≠ 0) (hi : i'.main = i.main)
    (hp : i'.shell_pid = i.shell_pid) : ShellReady s k' i' := by
  have hE := hS.effect hw
  have hh := hC.not_handler h₀.live
  have hm := hookMail hw (hw.le h₀.live) hh hC.first hS
  refine ⟨hr.live hw hE h₀.live hh, ?_, ?_, hi.trans h₀.main⟩
  · rw [(hw.sameRole hE (hw.le h₀.live)).pid, hp]
    exact h₀.pid
  · generalize (k'.procs s).sigq = q at hm ⊢
    generalize k'.handlers s = H at hm
    cases hm with
    | hook hc =>
      -- the callback that it installs is its own
      rcases (ShellMain.call_plain (k := k) (hr.main rfl hc hh)).2.2.2 with he | he
      · obtain rfl := Action.psignal_hook.inj he
        exact hcb
      · exact absurd he.2 Bool.false_ne_true
    | _ => exact h₀.callback

/-- What a step of the kernel leaves of init, once it spins. -/
theorem Relays.keeps (hR : Relays b cb (k, i) (some (k, a, o)) (k', i')) :
    (i.main = .spin → i'.main = i.main ∧ i'.shell_pid = i.shell_pid) ∧
      ∀ p dest payload, i'.callback p = .psignal_send dest payload → i.callback p = .psignal_send dest payload := by
  obtain ⟨-, hi⟩ := hR
  dsimp only at hi
  split at hi
  next =>
    subst hi
    exact ⟨fun _ => ⟨rfl, rfl⟩, fun _ _ _ => id⟩
  split at hi
  next =>
    obtain ⟨ha, rfl⟩ := hi
    refine ⟨fun hspin => ?_, fun p dest payload => ?_⟩
    · rw [hspin] at ha
      cases ha
    · unfold Initd.answered
      split <;> exact id
  next =>
    obtain ⟨-, rfl⟩ := hi
    refine ⟨fun _ => ⟨rfl, rfl⟩, fun p dest payload hp => ?_⟩
    by_cases he : p = k.current_task
    · rw [he, Initd.goto_self] at hp
      cases hcb : i.callback k.current_task <;> rw [hcb] at hp <;> unfold InitCallback.next at hp
      case psignal_fetch =>
        dsimp only at hp
        split at hp <;> cases hp
      all_goals cases hp
    · rwa [Initd.goto_of_ne he] at hp

/-- A new handler of init begins with the callback. -/
theorem InitRelay.old (hI : InitRelay b es k i) (hE : Effect k a o k') {p : ℕ} (hp : p ∈ k'.handlers b)
    (hc : i.callback p ≠ .mutex_acquire) : p ∈ k.handlers b := by
  have hl : k.Live p := by
    by_contra hl
    refine hc (hI.fresh p ?_)
    rcases created hI.wellFormed hE hl hp.1 with hf | hf <;> exact hf.fresh
  have hrole := hI.wellFormed.sameRole hE (hI.wellFormed.le hl)
  exact ⟨hl, hrole.isHandler ▸ hp.2.1, hrole.parent ▸ hp.2.2⟩

/-- **One step of the kernel.** -/
theorem KeyRun.step (hI : KeyRun b s es k i h) (hsb : s ≠ b) (hcb : cb' ≠ 0)
    (hC : KeyRelies b s (k, i, h) (k, a, o)) (hX : KeySystem b s cb cb' (k, i, h) (some (k, a, o)) (k', i', h')) :
    KeyRun b s (es ++ [(k, a, o)]) k' i' h' := by
  obtain ⟨hR, hr⟩ := hX
  have hS := hR.1.2
  have hw := hI.init.wellFormed
  have hE := hS.effect hw
  have hiff := hI.accepted_iff hsb hC hR
  obtain ⟨hstored, hcame⟩ := hI.stores hC hS
  obtain ⟨hmain, hsends⟩ := hR.keeps
  have hready : es.filterMap (accepted b) ≠ [] ∨ accepted b (k, a, o) ≠ none → ShellReady s k i := fun hn =>
    hn.elim hI.ready fun hacc => (hC.pressed hacc).2.2
  have hhooked : accepted s (k, a, o) ≠ none → (k.procs s).sigq.signal_callback ≠ 0 := fun hn => by
    obtain ⟨dest, payload, -, hp, hc⟩ := hR.sends hw (hiff.1 hn)
    exact (hI.handing hC.not_handler hp (by rw [hc]; rfl)).1.callback
  refine ⟨hI.init.called hC.init hR, hI.shell.step hw hI.init.locked ⟨hC.first, hC.not_handler, hhooked⟩ hS hr,
    hI.tidy_step hR, fun w hw' => ?_, keys_step hw hI.served hS, ?_, ?_, ?_, ?_, fun hn => ?_,
    fun p hp dest payload hc => ?_, fun e he hn => ?_⟩
  · rw [Lib.filterMap_snoc] at hw'
    rcases List.mem_append.1 hw' with hw' | hw'
    · exact hI.keys w hw'
    · exact hC.key (Option.mem_toList.1 hw')
  · rw [Lib.filterMap_snoc, Lib.filterMap_snoc, hI.stored, hstored]
  · rw [Lib.filterMap_snoc, Lib.filterMap_snoc, List.length_append, List.length_append, hI.came, hcame, hstored]
  · have hsame : (accepted s (k, a, o)).toList.length = (init_send b (k, a, o)).toList.length := by
      rw [Option.ne_none_iff_isSome, Option.ne_none_iff_isSome] at hiff
      rw [Option.length_toList, Option.length_toList, Bool.eq_iff_iff.2 hiff]
    rw [Lib.filterMap_snoc, Lib.filterMap_snoc, List.length_append, List.length_append, hI.agreed, hsame]
  · rw [Lib.filterMap_snoc, Lib.filterMap_snoc, hI.told, hI.tells hC hS hr]
  · have h₀ := hready (by
      rw [Lib.filterMap_snoc] at hn
      by_contra hno
      rw [not_or, not_not, not_not] at hno
      exact hn (by rw [hno.1, hno.2]; rfl))
    obtain ⟨hi, hp⟩ := hmain h₀.main
    exact h₀.step hw hC hS hr hcb hi hp
  · have hc := hsends p dest payload hc
    have hp := hI.init.old hE hp (by rw [hc]; exact nofun)
    have h₀ := (hI.handing hC.not_handler hp (by rw [hc]; rfl)).1
    rw [(hmain h₀.main).2]
    exact hI.aimed p hp dest payload hc
  · rcases List.mem_append.1 he with he | he
    · exact hI.passed e he hn
    · rw [List.mem_singleton.1 he] at hn ⊢
      exact hiff.2 hn

theorem Initd.goto_or {j : Initd} {c d : InitCallback} {p r : ℕ} (hr : (j.goto p c).callback r = d) :
    c = d ∨ j.callback r = d := by
  by_cases he : r = p
  · rw [he, goto_self] at hr
    exact .inl hr
  · rw [goto_of_ne he] at hr
    exact .inr hr

/-- What a step of its own leaves of init: only who has fetched a keystroke begins to send, and to the shell. -/
theorem Initd.alone_keeps {p : ℕ} (ha : i.alone p = some i') : i'.main = i.main ∧ i'.shell_pid = i.shell_pid ∧
    ∀ r dest payload, i'.callback r = .psignal_send dest payload →
      i.callback r = .psignal_send dest payload ∨ dest = i.shell_pid := by
  unfold alone at ha
  cases hc : i.callback p with
  | mutex_acquire =>
    rw [hc] at ha
    obtain rfl := Option.some.inj ha
    refine ⟨rfl, rfl, fun r dest payload hr => .inl ((goto_or hr).resolve_left ?_)⟩
    split <;> exact nofun
  | shell_pid psignal =>
    rw [hc] at ha
    obtain rfl := Option.some.inj ha
    refine ⟨rfl, rfl, fun r dest payload hr => ?_⟩
    exact (goto_or hr).symm.imp_right fun hg => (InitCallback.psignal_send.inj hg).1.symm
  | mutex_release =>
    rw [hc] at ha
    obtain rfl := Option.some.inj ha
    exact ⟨rfl, rfl, fun r dest payload hr => .inl ((goto_or hr).resolve_left nofun)⟩
  | psignal_fetch | psignal_send | exit =>
    rw [hc] at ha
    cases ha

/-- **A step of a handler of init alone.** -/
theorem KeyRun.alone (hI : KeyRun b s es k i h) (hp : k.current_task ∈ k.handlers b)
    (ha : i.alone k.current_task = some i') : KeyRun b s es k i' h := by
  obtain ⟨hmain, hpid, hsends⟩ := Initd.alone_keeps ha
  refine { hI with
    init := hI.init.alone hp ha
    ready := fun hn => ?_
    aimed := fun p hp dest payload hc => ?_ }
  · have h₀ := hI.ready hn
    exact ⟨h₀.live, h₀.pid.trans hpid.symm, h₀.callback, hmain.trans h₀.main⟩
  · rw [hpid]
    exact (hsends p dest payload hc).elim (hI.aimed p hp dest payload) id

/-- **One step of the system.** -/
theorem KeyRun.system {x y : Kernel × Initd × Shelld} {e : Option Entry} {es : List (Option Entry)}
    (hI : KeyRun b s (es.filterMap id) x.1 x.2.1 x.2.2) (hsb : s ≠ b) (hcb : cb' ≠ 0)
    (hC : ∀ f, e = some f → KeyRelies b s x f) (hX : KeySystem b s cb cb' x e y) :
    KeyRun b s ((es ++ [e]).filterMap id) y.1 y.2.1 y.2.2 := by
  obtain ⟨_, i, h⟩ := x
  obtain ⟨k', i', h'⟩ := y
  rw [Lib.filterMap_snoc]
  cases e with
  | none =>
    obtain ⟨⟨hk, -, hp, ha⟩, hr⟩ := hX
    obtain rfl : k' = _ := hk
    obtain rfl : h' = h := hr
    simpa using hI.alone hp ha
  | some e =>
    obtain ⟨k, a, o⟩ := e
    obtain rfl : k = _ := hX.1.1.1
    exact hI.step hsb hcb (hC _ rfl) hX

/-! ### Results -/

theorem Booted.keyRun (hb : Booted k) (hw : k.WellFormed) (hz : k.last_keystroke = 0) (hs : s ≠ k.queue_base) :
    KeyRun k.queue_base s [] k .start .start where
  init := hb.relay hw
  shell := hb.serves hs
  tidy := by
    rw [← hb.current_task]
    exact .opened hb.next_index hb.rwlock
  keys := by simp
  served := by simp [key_pending, hz]
  stored := by simp
  came := by simp
  agreed := by simp
  told := by simp
  ready hn := absurd List.filterMap_nil hn
  aimed p hp := absurd hp.2.1 (hb.no_handler hp.1)
  passed := by simp

/-- Who is to fetch its signal has no keystroke in its hands. -/
theorem InitCallback.hand_of_unread {c : InitCallback} (hu : c.unread = true) : c.hand = false := by
  cases c <;> first | rfl | cases hu

/-- Nobody is a handler of two processes. -/
theorem not_handler_of_both (hsb : s ≠ b) {p : ℕ} (hp : p ∈ k.handlers b) : p ∉ k.handlers s :=
  fun hp' => hsb (hp'.2.2.symm.trans hp.2.2)

theorem KeyRun.through (hI : KeyRun b s es k i h) (hsb : s ≠ b) : KeysThrough b s es k i h where
  told := by rw [hI.stored, hI.served, hI.told]
  passed := hI.passed
  carried := by
    obtain ⟨ws, n, -, hu, hn, htoken⟩ := hI.token
    have hfin := k.finite_handlers
    have hinit : {p ∈ k.handlers b | (i.callback p).unread = true ∨ (i.callback p).hand = true}.ncard =
        ws.length + n := by
      rw [Set.sep_or, Set.ncard_union_eq ?_ ((hfin b).subset fun _ hp => hp.1) ((hfin b).subset fun _ hp => hp.1),
        hu.ncard, hn.ncard fun p hp r hr hh hh' => ?_]
      · exact hI.init.relaying.mutex.one p r ⟨hp, InitCallback.inside_of_hand hh⟩ ⟨hr, InitCallback.inside_of_hand hh'⟩
      · refine Set.disjoint_left.2 fun p hp hp' => ?_
        exact Bool.false_ne_true ((InitCallback.hand_of_unread hp.2).symm.trans hp'.2)
    have hshell : (h.before (k.handlers s) .psignal_fetch ∪ h.before (k.handlers s) .sysreq).ncard =
        (h.before (k.handlers s) .psignal_fetch).ncard + (h.before (k.handlers s) .sysreq).ncard := by
      refine Set.ncard_union_eq ?_ (Shelld.finite_before (hfin s)) (Shelld.finite_before (hfin s))
      exact Set.disjoint_left.2 fun p hp hp' => absurd (hp.2.symm.trans hp'.2) nofun
    unfold carriers
    rw [Set.ncard_union_eq ?_ ((hfin b).subset fun _ hp => hp.1)
      ((Shelld.finite_before (hfin s)).union (Shelld.finite_before (hfin s))), hinit, hshell, htoken]
    · omega
    · exact Set.disjoint_left.2 fun p hp hp' =>
        hp'.elim (fun h => not_handler_of_both hsb hp.1 h.1) fun h => not_handler_of_both hsb hp.1 h.1

end Keypath

/-- **In every run** of the kernel, init and the shell the keystrokes get through. -/
theorem keys_through {s : ℕ} {k₀ k : Kernel} {cb cb' : UInt64} {es : List (Option Entry)} {i : Initd} {h : Shelld}
    (h₀ : Started k₀) (hz : k₀.last_keystroke = 0) (hs : s ≠ k₀.queue_base) (hcb : cb' ≠ 0)
    (hrun : Lib.Run (KeySystem k₀.queue_base s cb cb') (fun x e => ∀ f, e = some f → KeyRelies k₀.queue_base s x f)
      (k₀, .start, .start) es (k, i, h)) : KeysThrough k₀.queue_base s (es.filterMap id) k i h := by
  obtain ⟨hw, hb⟩ := h₀.booted
  exact (hrun.history (I := fun es (x : Kernel × Initd × Shelld) =>
    KeyRun k₀.queue_base s (es.filterMap id) x.1 x.2.1 x.2.2) (hb.keyRun hw hz hs)
    fun hI hC hX => hI.system hs hcb hC hX).through hs

/-! ### Runs that are computed -/

instance (b s : ℕ) (x : Kernel × Initd × Shelld) (e : Entry) : Decidable (KeyRelies b s x e) :=
  decidable_of_iff
    (InitRelies b (x.1, x.2.1) e ∧
      (x.1.Live s → x.1.queue.find? (fun p => (x.1.procs p).pid == (x.1.procs s).pid) = some s) ∧
      (x.1.Live s → (x.1.procs s).isHandler = false) ∧
      (accepted b e ≠ none → e.2.1.isInterrupt = true ∧ 0 < sender_pid x.1 ∧ ShellReady s x.1 x.2.1) ∧
      (accepted s e ≠ none → e.2.1.isInterrupt = false → signal_owner x.1 = b) ∧
      (e.2.1.fetches_key = true → signal_owner x.1 = s))
    ⟨fun h => ⟨h.1, h.2.1, h.2.2.1, h.2.2.2.1, h.2.2.2.2.1, h.2.2.2.2.2⟩,
      fun h => ⟨h.init, h.first, h.not_handler, h.pressed, h.relayed, h.served⟩⟩

/-- The next call of a callback of the shell that writes nothing. -/
def ShellCallback.call : ShellCallback → Action
  | psignal_fetch => .psignal_read
  | sysreq => .sysreq 0 0 0
  | answer _ => .exit

theorem ShellCallback.calls_call (c : ShellCallback) : c.calls c.call = true := by cases c <;> rfl

/-- The call that comes next, and what the programs have with the answer. -/
def key_call (b s : ℕ) (cb cb' : UInt64) (x : Kernel × Initd × Shelld) : Option (Action × (UInt64 → Initd × Shelld)) :=
  let p := x.1.current_task
  if signal_owner x.1 = b then
    if p = b then (x.2.1.main.call cb).map fun a => (a, fun o => (x.2.1.answered o, x.2.2))
    else (x.2.1.callback p).call.map fun a => (a, fun o => (x.2.1.goto p ((x.2.1.callback p).next o), x.2.2))
  else if signal_owner x.1 = s then
    if p = s then (x.2.2.main.call cb').map fun a => (a, fun _ => (x.2.1, { x.2.2 with main := x.2.2.main.next }))
    else some ((x.2.2.callback p).call, fun o => (x.2.1, x.2.2.goto p ((x.2.2.callback p).next o)))
  else none

/-- The next step of init or of the shell, or an interrupt. -/
def key_next (b s : ℕ) (cb cb' : UInt64) (x : Kernel × Initd × Shelld) (a : Option Action) :
    Kern (Kernel × Initd × Shelld) :=
  match a with
  | some a => do
    let (o, k) ← act x.1 a
    if a.isInterrupt = true ∧ KeyRelies b s x (x.1, a, o) then .ok (k, x.2) else .error .stopped
  | none =>
    if x.1.spinning = false ∧ x.1.Live x.1.current_task then
      match if signal_owner x.1 = b ∧ x.1.current_task ≠ b then x.2.1.alone x.1.current_task else none with
      | some i => .ok (x.1, i, x.2.2)
      | none =>
        match key_call b s cb cb' x with
        | some (a, answered) => do
          let (o, k) ← act x.1 a
          if a.isInterrupt = false ∧ KeyRelies b s x (x.1, a, o) then .ok (k, answered o) else .error .stopped
        | none => .error .stopped
    else .error .stopped

/-- The steps from `x`. -/
def key_drives (b s : ℕ) (cb cb' : UInt64) (x : Kernel × Initd × Shelld) :
    List (Option Action) → Kern (Kernel × Initd × Shelld)
  | [] => .ok x
  | a :: as => do key_drives b s cb cb' (← key_next b s cb cb' x a) as

section Drives

variable {b s : ℕ} {cb cb' : UInt64} {x y : Kernel × Initd × Shelld} {a : Action} {o : UInt64} {k' : Kernel}
  {answered : UInt64 → Initd × Shelld}

/-- The call of the program that runs is a step of the system. -/
theorem key_call_system (hc : key_call b s cb cb' x = some (a, answered)) (hsb : s ≠ b) (hl : x.1.spinning = false)
    (ha : act x.1 a = .ok (o, k')) (hi : a.isInterrupt = false) :
    KeySystem b s cb cb' x (some (x.1, a, o)) (k', answered o) := by
  have hlog : Logged x.1 (x.1, a, o) k' := ⟨rfl, fun hsp => absurd (hl.symm.trans hsp) nofun, ha⟩
  unfold key_call at hc
  dsimp only at hc
  by_cases hb : signal_owner x.1 = b
  · have hn : ¬(a.isInterrupt = true ∨ signal_owner x.1 ≠ b) := by simp [hi, hb]
    have hshell : ∀ {h : Shelld}, h = x.2.2 → ShellRuns s cb' x.2.2 (some (x.1, a, o)) h :=
      (ShellRuns.other_iff (.inr fun he => hsb (he.symm.trans hb))).2
    rw [if_pos hb] at hc
    by_cases hp : x.1.current_task = b
    · rw [if_pos hp] at hc
      obtain ⟨a', ha', he⟩ := Option.map_eq_some_iff.1 hc
      obtain ⟨rfl, rfl⟩ := Prod.mk.inj he
      exact ⟨⟨hlog, by rw [if_neg hn, if_pos hp]; exact ⟨ha', rfl⟩⟩, hshell rfl⟩
    · rw [if_neg hp] at hc
      obtain ⟨a', ha', he⟩ := Option.map_eq_some_iff.1 hc
      obtain ⟨rfl, rfl⟩ := Prod.mk.inj he
      exact ⟨⟨hlog, by rw [if_neg hn, if_neg hp]; exact ⟨ha', rfl⟩⟩, hshell rfl⟩
  · have hinit : ∀ {i : Initd}, i = x.2.1 → Relays b cb (x.1, x.2.1) (some (x.1, a, o)) (k', i) := fun hi =>
      ⟨hlog, by rw [if_pos (.inr hb)]; exact hi⟩
    rw [if_neg hb] at hc
    by_cases ho : signal_owner x.1 = s
    · rw [if_pos ho] at hc
      by_cases hp : x.1.current_task = s
      · rw [if_pos hp] at hc
        obtain ⟨a', ha', he⟩ := Option.map_eq_some_iff.1 hc
        obtain ⟨rfl, rfl⟩ := Prod.mk.inj he
        exact ⟨hinit rfl, (ShellRuns.main_iff hi ho hp).2 ⟨ha', rfl⟩⟩
      · rw [if_neg hp] at hc
        obtain ⟨rfl, rfl⟩ := Prod.mk.inj (Option.some.inj hc)
        exact ⟨hinit rfl, (ShellRuns.call_iff hi ho hp).2 ⟨ShellCallback.calls_call _, rfl⟩⟩
    · rw [if_neg ho] at hc
      cases hc

theorem key_next_ok {m : Option Action} (h : key_next b s cb cb' x m = .ok y) (hsb : s ≠ b) :
    ∃ e, (∀ f, e = some f → KeyRelies b s x f) ∧ KeySystem b s cb cb' x e y := by
  unfold key_next at h
  split at h
  next a =>
    obtain ⟨⟨o, k⟩, ha, h⟩ := bind_ok.1 h
    dsimp only at h
    split at h
    next hc =>
      obtain rfl := Except.ok.inj h
      exact ⟨some (x.1, a, o), by rintro _ ⟨rfl⟩; exact hc.2, ⟨⟨rfl, fun _ => hc.1, ha⟩, by rw [if_pos (.inl hc.1)]⟩,
        (ShellRuns.other_iff (.inl hc.1)).2 rfl⟩
    next => cases h
  next =>
    split at h
    next hl =>
      split at h
      next i halone =>
        obtain rfl := Except.ok.inj h
        split at halone
        next hb => exact ⟨none, by rintro _ ⟨⟩, ⟨rfl, hl.1, handler_of_owner hl.2 hb.1 hb.2, halone⟩, rfl⟩
        next => cases halone
      next =>
        split at h
        next a answered hc =>
          obtain ⟨⟨o, k⟩, ha, h⟩ := bind_ok.1 h
          dsimp only at h
          split at h
          next hr =>
            obtain rfl := Except.ok.inj h
            exact ⟨some (x.1, a, o), by rintro _ ⟨rfl⟩; exact hr.2, key_call_system hc hsb hl.1 ha hr.1⟩
          next => cases h
        next => cases h
    next => cases h

theorem key_drives_ok {as : List (Option Action)} (h : key_drives b s cb cb' x as = .ok y) (hsb : s ≠ b) : ∃ es,
    Lib.Run (KeySystem b s cb cb') (fun x e => ∀ f, e = some f → KeyRelies b s x f) x es y := by
  induction as generalizing x with
  | nil =>
    obtain rfl := Except.ok.inj h
    exact ⟨[], .nil⟩
  | cons a as ih =>
    obtain ⟨z, hz, h⟩ := bind_ok.1 h
    obtain ⟨e, hC, hX⟩ := key_next_ok hz hsb
    obtain ⟨es, hr⟩ := ih h
    exact ⟨_, (Lib.Run.single hC hX).trans hr⟩

end Drives

/-- The system starts, the key `a` is pressed, and a callback of the shell is told of it. -/
theorem keys_through_a : ∃ s k₀ k es i h, Started k₀ ∧ Lib.Run (KeySystem k₀.queue_base s 0x5000 0x6000)
    (fun x e => ∀ f, e = some f → KeyRelies k₀.queue_base s x f) (k₀, .start, .start) es (k, i, h) ∧
      h.callback k.current_task = .answer (packet 0x1E 0) ∧ KeysThrough k₀.queue_base s (es.filterMap id) k i h := by
  have ht : answers (start dark_machine 0x1234 >>= fun k =>
      if second_descriptor ≠ k.queue_base then
        key_drives k.queue_base second_descriptor 0x5000 0x6000 (k, .start, .start)
          [none, none, none, none, some (.timer quietTick), none, some (.keyboard 0x1E 0), some (.timer quietTick),
            none, none, none, none, none, none, some (.timer quietTick), none, none]
      else .error .stopped)
      (fun x => decide (x.2.2.callback x.1.current_task = .answer (packet 0x1E 0))) = true := by decide +kernel
  obtain ⟨x, hx, ht⟩ := answers_iff.1 ht
  obtain ⟨k₀, h₀, hx⟩ := bind_ok.1 hx
  have hstart : Started k₀ := ⟨dark_machine, _, ⟨rfl, rfl, rfl, rfl, rfl, rfl, rfl⟩, h₀⟩
  split at hx
  next hs =>
    obtain ⟨es, hr⟩ := key_drives_ok hx hs
    have hz : k₀.last_keystroke = 0 := start_last_keystroke h₀
    exact ⟨_, k₀, x.1, es, x.2.1, x.2.2, hstart, hr, of_decide_eq_true ht, keys_through hstart hz hs (by decide) hr⟩
  next => cases hx

end Iridium
