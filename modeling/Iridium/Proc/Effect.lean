import Iridium.Proc.Calls

/-!
# What an action does

`Effect` says once what each action can do to the state when it returns: nothing to the
queue and the signals, something to one signal queue, a new process behind the head, the
running process out of the queue, or a switch to the next one. `act_effect` derives it from
the functions; every invariant is then shown against `Effect` and never unfolds them.

The first invariant is `Kernel.WellFormed`: the queue is linked, the heap has no free
block, and the running process is in the queue unless the processor spins. It holds in
every state the kernel reaches (`RunsTo.wellFormed`).
-/

namespace Iridium

/-! ### Effects -/

/-- The key is reported: a key that was pressed, with a character, and none kept. -/
def reports (k : Kernel) (port beyond : UInt8) : Bool :=
  port.toUInt16 &&& 0x80 == 0 && reported (SC_ASCII.getD port.toNat beyond).toInt8 &&
    k.last_keystroke == 0

/-- The call of `psignal_send` an action makes: the state it is made in, the recipient's PID
and the payload. -/
def Action.sends (k : Kernel) : Action → Option (Kernel × PID_T × UInt32)
  | .psignal_send dest dword => some (k, dest, dword)
  | .keyboard port beyond =>
    if reports k port beyond then
      some ({ k with last_keystroke :=
        keystroke_packet (SC_ASCII.getD port.toNat beyond).toInt8 port.toUInt16 }, 1, 0x9961A7A)
    else none
  | _ => none

/-- The process that a signal to this PID reaches, if its queue takes the signal. -/
def recipient (k : Kernel) (dest : PID_T) : Option ℕ :=
  (k.queue.find? fun p => (k.procs p).pid == dest).filter fun p => Accepts k p

/-- The action makes a new process. -/
def spawns (k : Kernel) (a : Action) : Bool :=
  match a with
  | .initrd_spawn _ permissions _ => !denied k permissions
  | _ =>
    match a.sends k with
    | some (_, dest, _) => (recipient k dest).any fun p => (k.procs p).sigq.signal_callback != 0
    | none => false

theorem spawns_of_sends {k k₁ : Kernel} {a : Action} {dest : PID_T} {dword : UInt32} {p : ℕ}
    (hs : a.sends k = some (k₁, dest, dword)) (hr : recipient k dest = some p)
    (hc : (k.procs p).sigq.signal_callback ≠ 0) : spawns k a = true := by
  have hany : (recipient k dest).any (fun p => (k.procs p).sigq.signal_callback != 0) = true := by
    simp [hr, hc]
  unfold spawns
  split
  · simp [Action.sends] at hs
  · rw [hs]
    exact hany

/-- The two states agree but for drivers, the keystroke and the screen. -/
structure Kernel.Quiet (k k' : Kernel) : Prop where
  mm : k'.mm = k.mm
  queue_head : k'.queue_head = k.queue_head
  queue_base : k'.queue_base = k.queue_base
  current_task : k'.current_task = k.current_task
  next_pid : k'.next_pid = k.next_pid
  spinning : k'.spinning = k.spinning
  procs : ∀ p, k'.procs p =
    { k.procs p with
      n_slave_driver_groups := (k'.procs p).n_slave_driver_groups
      slave_driver_groups := (k'.procs p).slave_driver_groups }

theorem Kernel.Quiet.refl (k : Kernel) : k.Quiet k := ⟨rfl, rfl, rfl, rfl, rfl, rfl, fun _ => rfl⟩

/-- The action is neither a read, nor a hook, nor the timer: these always do something. -/
def Action.plain : Action → Bool
  | .psignal_read | .psignal_hook _ | .timer _ => false
  | _ => true

/-- **An action that comes to nothing**: what it asks for is denied, or it asks for nothing
that concerns the queue or the signals. -/
structure Idle (k : Kernel) (a : Action) : Prop where
  plain : a.plain = true
  spawns : spawns k a = false
  exits : a.exits = true → refused k k.current.pid = true
  /-- A signal it sends is not accepted. -/
  sends : ∀ {k₁ dest dword}, a.sends k = some (k₁, dest, dword) →
    recipient k dest = none ∧ ∃ e k₂, psignal_send k₁ dest dword = .ok (e, k₂) ∧ e ≠ EXIT_SUCCESS

/-- The state with another keystroke kept. -/
def Kernel.keyed (k : Kernel) (x : UInt32) : Kernel := { k with last_keystroke := x }

/-- **What an action does**, and what it answers. -/
inductive Effect (k : Kernel) : Action → UInt64 → Kernel → Prop where
  /-- Nothing to the queue and the signals. -/
  | quiet {a : Action} {o : UInt64} {k' : Kernel} : k.Quiet k' → Idle k a → Effect k a o k'
  /-- A signal is read. -/
  | read : k.spinning = false → Effect k .psignal_read (psignal_read k).1 (psignal_read k).2
  /-- A callback is installed. -/
  | hook {callback : UInt64} : k.spinning = false →
      Effect k (.psignal_hook callback) 0 (psignal_hook k callback)
  /-- A signal is queued. -/
  | queued {a : Action} {o : UInt64} {x : UInt32} {dest : PID_T} {dword : UInt32} {p : ℕ} :
      a.sends k = some (k.keyed x, dest, dword) → recipient k dest = some p →
      (k.procs p).sigq.signal_callback = 0 →
      psignal_send (k.keyed x) dest dword = .ok (EXIT_SUCCESS, deliver (k.keyed x) p dword) →
      Effect k a o (deliver (k.keyed x) p dword)
  /-- A signal is queued, and a signal handler is spawned for it. -/
  | handled {a : Action} {o : UInt64} {x : UInt32} {dest : PID_T} {dword : UInt32} {p h : ℕ}
      {ctx : ℕ → UInt64} {mm : Mm} :
      a.sends k = some (k.keyed x, dest, dword) → recipient k dest = some p →
      (k.procs p).sigq.signal_callback ≠ 0 →
      Spawned (deliver (k.keyed x) p dword) (k.procs p).sigq.signal_callback [] h ctx mm →
      Effect k a o ((deliver (k.keyed x) p dword).link h
        (spawned_handler (deliver (k.keyed x) p dword) h p ctx) mm)
  /-- A process is spawned from a file. -/
  | spawned {path : List UInt8} {permissions : PPERM_T} {uses_console : UInt8} {p : ℕ}
      {ctx : ℕ → UInt64} {mm : Mm} :
      denied k permissions = false → Spawned k 0 path p ctx mm →
      Effect k (.initrd_spawn path permissions uses_console) (ofInt16 k.next_pid)
        (k.link p (Iridium.spawned k p permissions uses_console ctx) mm)
  /-- The running process is killed. -/
  | exited {a : Action} {o : UInt64} {pmm : Pmm} : a.exits = true → k.spinning = false →
      refused k k.current.pid = false → SolePid k k.queue k.current_task →
      pmm_free k.mm.vm.pmm k.current.cr3 = .ok pmm → Effect k a o (killed k k.current_task pmm)
  /-- The next process runs. -/
  | timer {t : Tick} : Effect k (.timer t) 0 (irq0_isr k t).1

/-! ### The invariant -/

/-- **A well-formed state.** -/
structure Kernel.WellFormed (k : Kernel) : Prop where
  linked : k.Linked k.queue
  heap : k.mm.HeapOk
  init : (k.procs k.queue_base).pid = 1
  current_le : k.current_task ≤ k.frontier
  /-- The running process is in the queue. -/
  running : k.spinning = false → k.Live k.current_task
  /-- When the processor spins, the process killed is not, but the one after it is. -/
  dead : k.spinning = true → ¬k.Live k.current_task ∧ k.Live (next_running k)

section Act

variable {k k' : Kernel} {a : Action} {o : UInt64}

/-- The search for a recipient, from what was found in the queue. -/
theorem recipient_eq_some {dest : PID_T} {p : ℕ}
    (hp : k.queue.find? (fun p => (k.procs p).pid == dest) = some p) (ha : Accepts k p) :
    recipient k dest = some p := by
  simp [recipient, hp, ha]

theorem recipient_eq_none {dest : PID_T} {p : ℕ}
    (hp : k.queue.find? (fun p => (k.procs p).pid == dest) = some p) (ha : ¬Accepts k p) :
    recipient k dest = none := by
  simp [recipient, hp, ha]

theorem recipient_mem {dest : PID_T} {p : ℕ} (h : recipient k dest = some p) : k.Live p :=
  List.mem_of_find?_eq_some (Option.filter_eq_some_iff.1 h).1

theorem recipient_accepts {dest : PID_T} {p : ℕ} (h : recipient k dest = some p) : Accepts k p :=
  of_decide_eq_true (Option.filter_eq_some_iff.1 h).2

/-- A call of `psignal_send`, as part of an action that leaves the rest alone. -/
theorem Sent.effect {x : UInt32} {dest : PID_T} {dword : UInt32} {e : ERRNO_T}
    (hs : Sent (k.keyed x) k.queue dest dword e k')
    (hsend : a.sends k = some (k.keyed x, dest, dword))
    (hcall : psignal_send (k.keyed x) dest dword = .ok (e, k')) :
    (e = EXIT_SUCCESS ∧ Effect k a o k') ∨ (e ≠ EXIT_SUCCESS ∧ k' = k.keyed x ∧
      recipient k dest = none) := by
  cases hs with
  | unknown hn =>
    refine .inr ⟨by decide, rfl, ?_⟩
    have : k.queue.find? (fun p => (k.procs p).pid == dest) = none :=
      List.find?_eq_none.2 fun p hp he => hn p hp (beq_iff_eq.1 he)
    simp [recipient, this]
  | refused hp ha he =>
    refine .inr ⟨by rcases he with rfl | rfl <;> decide, rfl, recipient_eq_none hp fun h => ha ?_⟩
    exact ⟨h.room, h.unlocked⟩
  | queued hp ha h0 =>
    exact .inl ⟨rfl, .queued hsend (recipient_eq_some hp ⟨ha.room, ha.unlocked⟩) h0 hcall⟩
  | handled hp ha h0 hs =>
    exact .inl ⟨rfl, .handled hsend (recipient_eq_some hp ⟨ha.room, ha.unlocked⟩) h0 hs⟩

/-- An action that sends nothing and makes nothing. -/
theorem Idle.of_not_sends (hp : a.plain = true) (hs : (a.sends k, Iridium.spawns k a) = (none, false))
    (hx : a.exits = true → refused k k.current.pid = true) : Idle k a where
  plain := hp
  spawns := (Prod.mk.inj hs).2
  exits := hx
  sends h := by
    rw [(Prod.mk.inj hs).1] at h
    cases h

/-- An action whose signal is not accepted. -/
theorem Idle.of_sends {k₁ k₂ : Kernel} {dest : PID_T} {dword : UInt32} {e : ERRNO_T}
    (hp : (a.plain, a.exits) = (true, false)) (hs : a.sends k = some (k₁, dest, dword))
    (hr : recipient k dest = none) (hcall : psignal_send k₁ dest dword = .ok (e, k₂))
    (hne : e ≠ EXIT_SUCCESS) : Idle k a where
  plain := (Prod.mk.inj hp).1
  spawns := by
    unfold Iridium.spawns
    split
    · simp [Action.sends] at hs
    · rw [hs]
      show (recipient k dest).any _ = false
      rw [hr]
      rfl
  exits h := by
    rw [(Prod.mk.inj hp).2] at h
    cases h
  sends h := by
    rw [hs] at h
    obtain ⟨rfl, rfl, rfl⟩ : k₁ = _ ∧ dest = _ ∧ dword = _ := by simpa using h
    exact ⟨hr, e, k₂, hcall, hne⟩

/-- What `irq1_isr` does. -/
theorem irq1_isr_eq (k : Kernel) (port beyond : UInt8) : irq1_isr k port beyond =
    if reports k port beyond then do
      let (e, k) ← psignal_send (k.keyed
        (keystroke_packet (SC_ASCII.getD port.toNat beyond).toInt8 port.toUInt16)) 1 0x9961A7A
      if e = -EBUSY then return { k with last_keystroke := 0 }
      return k
    else .ok k := by
  unfold irq1_isr reports
  dsimp only
  generalize (SC_ASCII.getD port.toNat beyond).toInt8 = c
  by_cases h₁ : port.toUInt16 &&& 0x80 = 0
  · by_cases h₂ : reported c = true
    · by_cases h₃ : k.last_keystroke = 0
      · simp [h₁, h₂, h₃, Kernel.keyed]
      · simp [h₁, h₂, h₃]
    · simp [h₁, h₂]
  · simp [h₁]

theorem drv_claim_quiet (k : Kernel) (driver_type : UInt32) : k.Quiet (drv_claim k driver_type).2 := by
  unfold drv_claim
  split
  · exact .refl k
  split
  · exact .refl k
  split
  · exact .refl k
  split
  · exact .refl k
  split
  · exact .refl k
  refine ⟨rfl, rfl, rfl, rfl, rfl, rfl, fun p => ?_⟩
  by_cases hp : p = k.current_task
  · subst hp
    simp [Kernel.modify]
  · simp [Kernel.modify, hp]

theorem sysreq_quiet {service_num : UInt32} {request : UInt64}
    {r : UAPI_STATUS_T × Option UInt64 × Kernel} (h : sysreq k service_num request = .ok r) :
    k.Quiet r.2.2 := by
  unfold sysreq at h
  split at h
  · obtain rfl := Except.ok.inj h
    unfold keyboard_uapi
    split <;> exact ⟨rfl, rfl, rfl, rfl, rfl, rfl, fun _ => rfl⟩
  split at h
  · obtain ⟨⟨status, screen, fb⟩, -, h⟩ := bind_ok.1 h
    obtain rfl := pure_ok.1 h
    exact ⟨rfl, rfl, rfl, rfl, rfl, rfl, fun _ => rfl⟩
  split at h
  · obtain rfl := Except.ok.inj h
    unfold procinfo_uapi
    split <;> exact .refl k
  · obtain rfl := Except.ok.inj h
    exact .refl k

/-- An exit, as an action of the running process. -/
theorem exit_effect (hw : k.WellFormed) (ha : a.exits = true) (he : Enabled k a)
    (h : exit k = .ok k') : Effect k a o k' := by
  have hs := he.not_spinning ha
  rcases exit_ok hw.linked hw.init (hw.running hs) h with ⟨hr, rfl⟩ | ⟨hr, hu, pmm, hp, rfl⟩
  · refine .quiet (.refl _) ?_
    cases a <;> first | exact .of_not_sends rfl rfl fun _ => hr | simp [Action.exits] at ha
  · exact .exited ha hs hr hu hp

/-- **Every action that returns has its effect.** -/
theorem act_effect (hw : k.WellFormed) (he : Enabled k a) (h : act k a = .ok (o, k')) :
    Effect k a o k' := by
  cases a with
  | initrd_spawn path permissions uses_console =>
    obtain ⟨⟨pid, k₁⟩, h₁, h⟩ := bind_ok.1 h
    obtain ⟨rfl, rfl⟩ := Prod.mk.inj (pure_ok.1 h)
    rcases _initrd_spawn_ok hw.linked hw.heap h₁ with ⟨hd, -, rfl⟩ | ⟨hd, rfl, p, ctx, mm, hs, rfl⟩
    · exact .quiet (.refl _) ⟨rfl, by simp [spawns, hd], by simp [Action.exits], by simp [Action.sends]⟩
    · exact .spawned hd hs
  | psignal_send dest dword =>
    obtain ⟨⟨e, k₁⟩, h₁, h⟩ := bind_ok.1 h
    obtain ⟨rfl, rfl⟩ := Prod.mk.inj (pure_ok.1 h)
    rcases Sent.effect (a := .psignal_send dest dword) (x := k.last_keystroke)
      (psignal_send_ok hw.linked hw.heap h₁) rfl h₁ with
      ⟨-, hE⟩ | ⟨hne, rfl, hr⟩
    · exact hE
    · have hsend : Action.sends k (.psignal_send dest dword) = some (k, dest, dword) := rfl
      exact .quiet (.refl k) (.of_sends rfl hsend hr h₁ hne)
  | psignal_read =>
    obtain ⟨rfl, rfl⟩ := Prod.mk.inj (Except.ok.inj h)
    exact .read (he.runs rfl)
  | psignal_hook callback =>
    obtain ⟨rfl, rfl⟩ := Prod.mk.inj (Except.ok.inj h)
    exact .hook (he.runs rfl)
  | drv_claim driver_type =>
    obtain ⟨-, rfl⟩ := Prod.mk.inj (Except.ok.inj h)
    exact .quiet (drv_claim_quiet k driver_type) (.of_not_sends rfl rfl (by simp [Action.exits]))
  | sysreq service_num request uninit =>
    obtain ⟨r, h₁, h⟩ := bind_ok.1 h
    obtain ⟨-, rfl⟩ := Prod.mk.inj (pure_ok.1 h)
    exact .quiet (sysreq_quiet h₁) (.of_not_sends rfl rfl (by simp [Action.exits]))
  | con_out string color =>
    obtain ⟨console, -, h⟩ := bind_ok.1 h
    obtain ⟨-, rfl⟩ := Prod.mk.inj (pure_ok.1 h)
    exact .quiet ⟨rfl, rfl, rfl, rfl, rfl, rfl, fun _ => rfl⟩
      (.of_not_sends rfl rfl (by simp [Action.exits]))
  | exit =>
    obtain ⟨k₁, h₁, h⟩ := bind_ok.1 h
    obtain ⟨-, rfl⟩ := Prod.mk.inj (pure_ok.1 h)
    exact exit_effect hw rfl he h₁
  | fault =>
    obtain ⟨k₁, h₁, h⟩ := bind_ok.1 h
    obtain ⟨-, rfl⟩ := Prod.mk.inj (pure_ok.1 h)
    unfold handle_exception at h₁
    split at h₁
    · cases h₁
    · exact exit_effect hw rfl he h₁
  | timer t =>
    obtain ⟨rfl, rfl⟩ := Prod.mk.inj (Except.ok.inj h)
    exact .timer
  | keyboard port beyond =>
    obtain ⟨k₁, h₁, h⟩ := bind_ok.1 h
    obtain ⟨-, rfl⟩ := Prod.mk.inj (pure_ok.1 h)
    rw [irq1_isr_eq] at h₁
    split at h₁
    next hrep =>
      obtain ⟨⟨e, k₂⟩, h₂, h₁⟩ := bind_ok.1 h₁
      have hsend : Action.sends k (.keyboard port beyond) = some (k.keyed
          (keystroke_packet (SC_ASCII.getD port.toNat beyond).toInt8 port.toUInt16), 1, 0x9961A7A) := by
        simp only [Action.sends, hrep, if_true]
        rfl
      have hlk : Kernel.Linked (k.keyed (keystroke_packet (SC_ASCII.getD port.toNat beyond).toInt8
          port.toUInt16)) k.queue := hw.linked.congr rfl rfl (Nat.le_refl _) fun _ _ => ⟨rfl, rfl⟩
      rcases Sent.effect (psignal_send_ok hlk hw.heap h₂) hsend h₂ with ⟨rfl, hE⟩ | ⟨hne, rfl, hr⟩
      · obtain rfl := pure_ok.1 h₁
        exact hE
      · have hq : k.Quiet k₁ := by
          dsimp only at h₁
          split at h₁
          · obtain rfl := pure_ok.1 h₁
            exact ⟨rfl, rfl, rfl, rfl, rfl, rfl, fun _ => rfl⟩
          · obtain rfl := pure_ok.1 h₁
            exact ⟨rfl, rfl, rfl, rfl, rfl, rfl, fun _ => rfl⟩
        exact .quiet hq (.of_sends rfl hsend hr h₂ hne)
    next hrep =>
      obtain rfl := Except.ok.inj h₁
      have hnone : Action.sends k (.keyboard port beyond) = none := by simp [Action.sends, hrep]
      exact .quiet (.refl _) ⟨rfl, by simp [spawns, hnone], by simp [Action.exits], by simp [hnone]⟩

end Act

/-- **An exit that is not refused** kills the running process. -/
theorem Effect.killed (hE : Effect k a o k') (ha : a.exits = true)
    (hr : refused k k.current.pid = false) : k.spinning = false ∧ SolePid k k.queue k.current_task ∧
      ∃ pmm, pmm_free k.mm.vm.pmm k.current.cr3 = .ok pmm ∧ k' = killed k k.current_task pmm := by
  cases hE with
  | quiet _ hi =>
    rw [hi.exits ha] at hr
    cases hr
  | exited _ hs _ hu hp => exact ⟨hs, hu, _, hp, rfl⟩
  | queued hsend | handled hsend => cases a <;> simp [Action.exits, Action.sends] at ha hsend
  | read | hook | spawned | timer => simp [Action.exits] at ha

/-- A timer interrupt does what `irq0_isr` does. -/
theorem Effect.timer_eq {t : Tick} (hE : Effect k (.timer t) o k') : k' = (irq0_isr k t).1 := by
  cases hE with
  | quiet _ hi =>
    have := hi.plain
    cases this
  | queued hs | handled hs => cases hs
  | exited ha => cases ha
  | timer => rfl

/-! ### The invariant, one effect at a time -/

/-- The two states have the same queue: the links, the PIDs and the heap agree. -/
structure Kernel.SameLinks (k k' : Kernel) : Prop where
  heap : k'.mm.heap = k.mm.heap
  queue_head : k'.queue_head = k.queue_head
  queue_base : k'.queue_base = k.queue_base
  pid : ∀ p, (k'.procs p).pid = (k.procs p).pid
  next : ∀ p, (k'.procs p).next = (k.procs p).next
  prev : ∀ p, (k'.procs p).prev = (k.procs p).prev

namespace Kernel

variable {k k' : Kernel} {a : Action} {o : UInt64}

theorem SameLinks.frontier (h : k.SameLinks k') : k'.frontier = k.frontier := by
  unfold Kernel.frontier
  rw [h.heap]

theorem SameLinks.queue (h : k.SameLinks k') : k'.queue = k.queue := by
  unfold Kernel.queue Kernel.fuel
  rw [h.heap, h.queue_base, funext h.next]

theorem SameLinks.live (h : k.SameLinks k') {p : ℕ} : k'.Live p ↔ k.Live p := by
  rw [Live, Live, h.queue]

/-- Links that stay, and a running process that is right. -/
theorem WellFormed.same (hw : k.WellFormed) (h : k.SameLinks k') (hc : k'.current_task ≤ k.frontier)
    (hr : k'.spinning = false → k.Live k'.current_task)
    (hd : k'.spinning = true → ¬k.Live k'.current_task ∧ k.Live (next_running k')) :
    k'.WellFormed where
  linked := by
    rw [h.queue]
    exact hw.linked.congr h.queue_base h.queue_head (Nat.le_of_eq h.frontier.symm)
      fun p _ => ⟨h.next p, h.prev p⟩
  heap := ⟨by rw [h.heap]; exact hw.heap.used, by rw [h.heap]; exact hw.heap.bytes_allocated⟩
  init := by rw [h.queue_base, h.pid]; exact hw.init
  current_le := by rw [h.frontier]; exact hc
  running hs := h.live.2 (hr hs)
  dead hs := ⟨fun hl => (hd hs).1 (h.live.1 hl), h.live.2 (hd hs).2⟩

/-- Links that stay, and the same process running. -/
theorem WellFormed.same_current (hw : k.WellFormed) (h : k.SameLinks k')
    (hc : k'.current_task = k.current_task) (hs : k'.spinning = k.spinning) : k'.WellFormed := by
  refine hw.same h (hc ▸ hw.current_le) (fun hf => hc ▸ hw.running (hs ▸ hf)) fun ht => ?_
  have hn : next_running k' = next_running k := by
    unfold next_running current
    rw [hc, h.next]
  rw [hc, hn]
  exact hw.dead (hs ▸ ht)

theorem Quiet.sameLinks (h : k.Quiet k') : k.SameLinks k' where
  heap := by rw [h.mm]
  queue_head := h.queue_head
  queue_base := h.queue_base
  pid p := by rw [h.procs]
  next p := by rw [h.procs]
  prev p := by rw [h.procs]

/-- A descriptor changed, but for its PID and its links. -/
theorem sameLinks_modify {p : ℕ} {f : Process → Process}
    (hf : ∀ q, (f q).pid = q.pid ∧ (f q).next = q.next ∧ (f q).prev = q.prev) :
    k.SameLinks (k.modify p f) where
  heap := rfl
  queue_head := rfl
  queue_base := rfl
  pid r := by
    by_cases hr : r = p
    · subst hr; simpa [modify] using (hf _).1
    · simp [modify, hr]
  next r := by
    by_cases hr : r = p
    · subst hr; simpa [modify] using (hf _).2.1
    · simp [modify, hr]
  prev r := by
    by_cases hr : r = p
    · subst hr; simpa [modify] using (hf _).2.2
    · simp [modify, hr]

theorem SameLinks.trans {k'' : Kernel} (h₁ : k.SameLinks k') (h₂ : k'.SameLinks k'') :
    k.SameLinks k'' where
  heap := h₂.heap.trans h₁.heap
  queue_head := h₂.queue_head.trans h₁.queue_head
  queue_base := h₂.queue_base.trans h₁.queue_base
  pid p := (h₂.pid p).trans (h₁.pid p)
  next p := (h₂.next p).trans (h₁.next p)
  prev p := (h₂.prev p).trans (h₁.prev p)

theorem sameLinks_read (k : Kernel) : k.SameLinks (psignal_read k).2 := by
  rw [psignal_read_eq]
  split
  · exact sameLinks_modify (f := fun q => { q with sigq := q.sigq.unlock }) fun _ => ⟨rfl, rfl, rfl⟩
  · exact sameLinks_modify (f := fun q => { q with sigq := q.sigq.unlock.pop }) fun _ => ⟨rfl, rfl, rfl⟩

theorem current_read (k : Kernel) : (psignal_read k).2.current_task = k.current_task ∧
    (psignal_read k).2.spinning = k.spinning := by
  rw [psignal_read_eq]
  split <;> exact ⟨rfl, rfl⟩

theorem sameLinks_hook (k : Kernel) (callback : UInt64) : k.SameLinks (psignal_hook k callback) :=
  sameLinks_modify fun _ => ⟨rfl, rfl, rfl⟩

theorem sameLinks_deliver (k : Kernel) (x : UInt32) (p : ℕ) (dword : UInt32) :
    k.SameLinks (deliver (k.keyed x) p dword) :=
  have hk : k.SameLinks (k.keyed x) := ⟨rfl, rfl, rfl, fun _ => rfl, fun _ => rfl, fun _ => rfl⟩
  hk.trans (sameLinks_modify fun _ => ⟨rfl, rfl, rfl⟩)

theorem WellFormed.deliver (hw : k.WellFormed) (x : UInt32) (p : ℕ) (dword : UInt32) :
    (deliver (k.keyed x) p dword).WellFormed :=
  hw.same_current (sameLinks_deliver k x p dword) rfl rfl

theorem sameLinks_timer (k : Kernel) (t : Tick) : k.SameLinks (irq0_isr k t).1 where
  heap := by rw [irq0_isr_fst]
  queue_head := by rw [irq0_isr_fst]; rfl
  queue_base := by rw [irq0_isr_fst]; rfl
  pid p := by rw [irq0_isr_procs]
  next p := by rw [irq0_isr_procs]
  prev p := by rw [irq0_isr_procs]

theorem WellFormed.le (hw : k.WellFormed) {p : ℕ} (hp : k.Live p) : p ≤ k.frontier := hw.linked.below p hp

theorem WellFormed.base_live (hw : k.WellFormed) : k.Live k.queue_base := hw.linked.ring.base_mem

theorem WellFormed.head_live (hw : k.WellFormed) : k.Live k.queue_head := hw.linked.ring.head_mem

/-- The process after the running one is in the queue. -/
theorem WellFormed.next_live (hw : k.WellFormed) : k.Live (next_running k) := by
  cases hs : k.spinning with
  | false => exact hw.linked.ring.next_mem (hw.running hs)
  | true => exact (hw.dead hs).2

section Link

variable {rip : UInt64} {path : List UInt8} {p : ℕ} {ctx : ℕ → UInt64} {mm : Mm} {q : Process}

/-- **A process linked** comes last in the queue. -/
theorem WellFormed.queue_link (hw : k.WellFormed) (hs : Spawned k rip path p ctx mm)
    (hn : q.next = k.queue_base) (hv : q.prev = k.queue_head) :
    (k.link p q mm).queue = k.queue ++ [p] :=
  (hw.linked.link hs.fresh hs.below hn hv).queue_eq

/-- Who is in the queue then. -/
theorem WellFormed.live_link (hw : k.WellFormed) (hs : Spawned k rip path p ctx mm)
    (hn : q.next = k.queue_base) (hv : q.prev = k.queue_head) {r : ℕ} :
    (k.link p q mm).Live r ↔ k.Live r ∨ r = p := by
  rw [Live, hw.queue_link hs hn hv, List.mem_append, List.mem_singleton]
  rfl

/-- A new process is none of those there are. -/
theorem fresh_ne (hs : Spawned k rip path p ctx mm) {r : ℕ}
    (hr : r ≤ k.frontier) : r ≠ p := by
  have := hs.fresh
  omega

/-- Who runs next is the same, unless the head of the queue is running. -/
theorem WellFormed.next_running_link (hw : k.WellFormed) (hs : Spawned k rip path p ctx mm)
    (hh : k.current_task ≠ k.queue_head) : next_running (k.link p q mm) = next_running k := by
  show ((k.link p q mm).procs k.current_task).next = _
  rw [link_procs_of_ne (fresh_ne hs hw.current_le) hh]
  rfl

theorem WellFormed.link (hw : k.WellFormed) (hs : Spawned k rip path p ctx mm)
    (hn : q.next = k.queue_base) (hv : q.prev = k.queue_head) : (k.link p q mm).WellFormed := by
  have hlive := fun r => hw.live_link hs hn hv (r := r)
  have hcp := fresh_ne hs hw.current_le
  refine ⟨?_, hw.heap.grows hs.grows, ?_, ?_, fun hr => ?_, fun hd => ?_⟩
  · rw [hw.queue_link hs hn hv]
    exact hw.linked.link hs.fresh hs.below hn hv
  · show ((k.link p q mm).procs k.queue_base).pid = 1
    rw [link_pid (fresh_ne hs (hw.le hw.base_live)), hw.init]
  · exact hw.current_le.trans (Nat.add_le_add_right hs.grows.head _)
  · exact (hlive _).2 (.inl (hw.running hr))
  · have hch : k.current_task ≠ k.queue_head := fun e => (hw.dead hd).1 (e ▸ hw.head_live)
    refine ⟨fun hl => ?_, (hlive _).2 (.inl ?_)⟩
    · exact ((hlive _).1 hl).elim (hw.dead hd).1 hcp
    · rw [hw.next_running_link hs hch]
      exact (hw.dead hd).2

end Link

section Killed

variable {pmm : Pmm}

/-- The process killed is not the first. -/
theorem WellFormed.ne_base (hw : k.WellFormed) (hr : refused k k.current.pid = false) :
    k.current_task ≠ k.queue_base := by
  intro he
  have h1 : k.current.pid = 1 := by
    unfold current
    rw [he, hw.init]
  simp [refused, h1] at hr

/-- What `killed` makes of the descriptors. -/
theorem killed_procs {p : ℕ} (hne : (k.procs p).prev ≠ p) (r : ℕ) :
    (killed k p pmm).procs r =
      { k.procs r with
        next := if r = (k.procs p).prev then (k.procs p).next else (k.procs r).next
        prev := if r = (k.procs p).next then (k.procs p).prev else (k.procs r).prev } := by
  rw [killed]
  dsimp only
  rw [unlink_eq]
  exact splice_procs (k := freed k pmm) hne r

/-- Memory after it: a frame may be free. -/
theorem killed_mm (k : Kernel) (p : ℕ) (pmm : Pmm) :
    (Iridium.killed k p pmm).mm = { k.mm with vm := { k.mm.vm with pmm } } := by
  rw [Iridium.killed]
  dsimp only
  rw [unlink_eq]
  rfl

/-- **A process killed** is taken out of the queue. -/
theorem WellFormed.linked_killed (hw : k.WellFormed) (hl : k.Live k.current_task)
    (hr : refused k k.current.pid = false) (hu : SolePid k k.queue k.current_task) :
    (killed k k.current_task pmm).Linked (k.queue.erase k.current_task) := by
  have h₁ : (freed k pmm).Linked k.queue :=
    hw.linked.congr rfl rfl (Nat.le_refl _) fun _ _ => ⟨rfl, rfl⟩
  have h₂ := h₁.unlink hl (hw.ne_base hr) hu
  exact h₂.congr rfl rfl (Nat.le_refl _) fun _ _ => ⟨rfl, rfl⟩

/-- The queue after it. -/
theorem WellFormed.queue_killed (hw : k.WellFormed) (hl : k.Live k.current_task)
    (hr : refused k k.current.pid = false) (hu : SolePid k k.queue k.current_task) :
    (killed k k.current_task pmm).queue = k.queue.erase k.current_task :=
  (hw.linked_killed hl hr hu).queue_eq

/-- Who is in the queue after it. -/
theorem WellFormed.live_killed (hw : k.WellFormed) (hl : k.Live k.current_task)
    (hr : refused k k.current.pid = false) (hu : SolePid k k.queue k.current_task) {p : ℕ} :
    (killed k k.current_task pmm).Live p ↔ p ≠ k.current_task ∧ k.Live p := by
  rw [Live, hw.queue_killed hl hr hu]
  exact hw.linked.ring.nodup.mem_erase_iff

/-- A process other than the head leaves the head and the next PID alone. -/
theorem WellFormed.killed_inner (hw : k.WellFormed) (hl : k.Live k.current_task)
    (hr : refused k k.current.pid = false) (hu : SolePid k k.queue k.current_task)
    (hh : k.current_task ≠ k.queue_head) :
    (killed k k.current_task pmm).queue_head = k.queue_head ∧
      (killed k k.current_task pmm).next_pid = k.next_pid := by
  have hne := hw.linked.ring.prev_ne hl (hw.ne_base hr)
  have hpid : k.current.pid ≠ k.head.pid := fun e => hh (hu _ hw.head_live e.symm).symm
  have hspid : (k.procs k.current_task).pid ≠ (splice (freed k pmm) k.current_task).head.pid := by
    show _ ≠ ((splice (freed k pmm) k.current_task).procs k.queue_head).pid
    rw [splice_pid (k := freed k pmm) hne]
    exact hpid
  unfold Iridium.killed
  rw [unlink_eq]
  dsimp only
  rw [if_neg hspid, if_neg fun h => hspid h.1]
  exact ⟨rfl, if_neg hpid⟩

/-- The head makes its predecessor the head and takes the next PID back, by one and, when
that is still above the new head's, by two. -/
theorem WellFormed.killed_head (hw : k.WellFormed) (hr : refused k k.current.pid = false)
    (hh : k.current_task = k.queue_head) :
    (killed k k.current_task pmm).queue_head = k.head.prev ∧
      (killed k k.current_task pmm).next_pid =
        if k.next_pid - 1 > (k.procs k.head.prev).pid then k.next_pid - 2 else k.next_pid - 1 := by
  have hb := hw.ne_base hr
  have hne := hw.linked.ring.prev_ne (hh ▸ hw.head_live) hb
  have hc : k.current = k.head := by
    unfold current
    rw [hh]
    rfl
  have hnb : k.queue_head ≠ (k.procs k.current_task).next := by
    have hclose : (k.procs k.queue_head).next = k.queue_base := hw.linked.ring.close
    rw [hh, hclose, ← hh]
    exact hb
  -- the head and its predecessor as they are when the neighbours have been joined
  have hhead : (splice (freed k pmm) k.current_task).head =
      (splice (freed k pmm) k.current_task).procs k.queue_head := rfl
  have hprev : (splice (freed k pmm) k.current_task).head.prev = k.head.prev := by
    rw [hhead, splice_procs (k := freed k pmm) hne]
    exact if_neg hnb
  have hpid : (k.procs k.current_task).pid = (splice (freed k pmm) k.current_task).head.pid := by
    rw [hhead, splice_pid (k := freed k pmm) hne, hh]
    rfl
  have hnext : (splice (freed k pmm) k.current_task).next_pid = k.next_pid - 1 := by
    show (if k.current.pid = k.head.pid then k.next_pid - 1 else k.next_pid) = _
    rw [hc, if_pos rfl]
  have hsub : k.next_pid - 1 - 1 = k.next_pid - 2 := by
    rw [Int16.sub_sub]
    rfl
  unfold Iridium.killed
  rw [unlink_eq]
  dsimp only
  rw [if_pos hpid, hprev, hnext, splice_pid (k := freed k pmm) hne, hsub]
  refine ⟨rfl, ?_⟩
  by_cases hlt : k.next_pid - 1 > (k.procs k.head.prev).pid
  · exact (if_pos ⟨hpid, hlt⟩).trans (if_pos hlt).symm
  · exact (if_neg fun h => hlt h.2).trans (if_neg hlt).symm

/-- Who runs next is the same. -/
theorem WellFormed.next_running_killed (hw : k.WellFormed) (hl : k.Live k.current_task)
    (hr : refused k k.current.pid = false) :
    next_running (Iridium.killed k k.current_task pmm) = next_running k := by
  have hne := hw.linked.ring.prev_ne hl (hw.ne_base hr)
  show ((Iridium.killed k k.current_task pmm).procs k.current_task).next = _
  rw [killed_procs hne, if_neg hne.symm]
  rfl

theorem WellFormed.killed (hw : k.WellFormed) (hl : k.Live k.current_task)
    (hr : refused k k.current.pid = false) (hu : SolePid k k.queue k.current_task) :
    (killed k k.current_task pmm).WellFormed := by
  have hlk : (Iridium.killed k k.current_task pmm).Linked _ := hw.linked_killed hl hr hu
  have hb := hw.ne_base hr
  have hne := hw.linked.ring.prev_ne hl hb
  have hmm := killed_mm k k.current_task pmm
  have hbase : (Iridium.killed k k.current_task pmm).queue_base = k.queue_base := by
    rw [Iridium.killed]
    dsimp only
    rw [unlink_eq]
    rfl
  refine ⟨?_, ?_, ?_, ?_, fun h => ?_, fun _ => ?_⟩
  · rw [hlk.queue_eq]
    exact hlk
  · rw [hmm]
    exact ⟨hw.heap.used, hw.heap.bytes_allocated⟩
  · rw [hbase, killed_procs hne, hw.init]
  · show k.current_task ≤ _
    unfold Kernel.frontier
    rw [hmm]
    exact hw.current_le
  · cases h
  · have hlive : ∀ p, (Iridium.killed k k.current_task pmm).Live p ↔ p ≠ k.current_task ∧ k.Live p :=
      fun p => hw.live_killed hl hr hu
    refine ⟨fun hd => ((hlive _).1 hd).1 rfl, (hlive _).2 ?_⟩
    rw [hw.next_running_killed hl hr]
    exact ⟨hw.linked.ring.next_ne hl hb, hw.linked.ring.next_mem hl⟩

end Killed

/-- **What an action does to the queue**: the running process leaves, or a new process comes,
or nothing happens. -/
theorem WellFormed.queue_effect (hw : k.WellFormed) (hE : Effect k a o k') :
    (a.exits = true ∧ refused k k.current.pid = false ∧ k'.queue = k.queue.erase k.current_task) ∨
      (spawns k a = true ∧ k'.queue_head ∉ k.queue ∧ k'.queue = k.queue ++ [k'.queue_head]) ∨
      ((a.exits = true → refused k k.current.pid = true) ∧ spawns k a = false ∧ k'.queue = k.queue) := by
  cases hE with
  | quiet hq hi => exact .inr (.inr ⟨hi.exits, hi.spawns, hq.sameLinks.queue⟩)
  | read => exact .inr (.inr ⟨by simp [Action.exits], rfl, (sameLinks_read k).queue⟩)
  | hook =>
    exact .inr (.inr ⟨by simp [Action.exits], rfl, (sameLinks_hook k _).queue⟩)
  | queued hsend hr hc =>
    refine .inr (.inr ⟨fun ha => ?_, ?_, (sameLinks_deliver k _ _ _).queue⟩)
    · cases a <;> simp [Action.exits, Action.sends] at ha hsend
    · unfold Iridium.spawns
      split
      · simp [Action.sends] at hsend
      · rw [hsend]
        show (recipient k _).any _ = false
        simp [hr, hc]
  | @handled _ _ x _ dword p _ _ _ hsend hr hc hs =>
    have hw' := hw.deliver x p dword
    refine .inr (.inl ⟨spawns_of_sends hsend hr hc, fun hm => ?_, ?_⟩)
    · exact fresh_ne hs (hw.le hm) rfl
    · rw [hw'.queue_link hs rfl rfl, (sameLinks_deliver k _ _ _).queue]
      rfl
  | spawned hd hs =>
    refine .inr (.inl ⟨by simp [Iridium.spawns, hd], fun hm => fresh_ne hs (hw.le hm) rfl, ?_⟩)
    exact hw.queue_link hs rfl rfl
  | exited ha hs hr hu => exact .inl ⟨ha, hr, hw.queue_killed (hw.running hs) hr hu⟩
  | timer => exact .inr (.inr ⟨by simp [Action.exits], rfl, (sameLinks_timer k _).queue⟩)

/-- **An effect keeps the invariant.** -/
theorem WellFormed.effect (hw : k.WellFormed) (hE : Effect k a o k') : k'.WellFormed := by
  cases hE with
  | quiet hq => exact hw.same_current hq.sameLinks hq.current_task hq.spinning
  | read => exact hw.same_current (sameLinks_read k) (current_read k).1 (current_read k).2
  | hook => exact hw.same_current (sameLinks_hook k _) rfl rfl
  | queued => exact hw.deliver _ _ _
  | handled _ _ _ hs => exact (hw.deliver _ _ _).link hs rfl rfl
  | spawned _ hs => exact hw.link hs rfl rfl
  | exited _ hs hr hu => exact hw.killed (hw.running hs) hr hu
  | timer =>
    refine hw.same (sameLinks_timer k _) ?_ (fun _ => ?_) fun h => ?_
    · rw [irq0_isr_fst]
      exact hw.le hw.next_live
    · rw [irq0_isr_fst]
      exact hw.next_live
    · rw [irq0_isr_fst] at h
      cases h

end Kernel

/-! ### What a process is -/

/-- The two descriptors are of one process: the PID, the permissions, the flags and the
parent agree. -/
structure Process.SameRole (q q' : Process) : Prop where
  pid : q'.pid = q.pid
  perm_mask : q'.perm_mask = q.perm_mask
  flags : q'.flags = q.flags
  parent : q'.parent = q.parent

section Role

variable {k k' : Kernel} {a : Action} {o : UInt64} {r : ℕ}

theorem Process.SameRole.trans {q q' q'' : Process} (h₁ : q.SameRole q') (h₂ : q'.SameRole q'') :
    q.SameRole q'' :=
  ⟨h₂.pid.trans h₁.pid, h₂.perm_mask.trans h₁.perm_mask, h₂.flags.trans h₁.flags,
    h₂.parent.trans h₁.parent⟩

theorem Process.SameRole.isHandler {q q' : Process} (h : q.SameRole q') : q'.isHandler = q.isHandler := by
  unfold Process.isHandler
  rw [h.flags]

theorem sameRole_of_sigq {q q' : Process} (h : q' = { q with sigq := q'.sigq }) : q.SameRole q' := by
  rw [h]
  exact ⟨rfl, rfl, rfl, rfl⟩

/-- A signal queue changed, and nothing else. -/
theorem modify_but_sigq {p : ℕ} (g : Process → SignalQueue) :
    (k.modify p fun q => { q with sigq := g q }).procs r =
      { k.procs r with sigq := ((k.modify p fun q => { q with sigq := g q }).procs r).sigq } := by
  by_cases hr : r = p
  · subst hr
    simp [Kernel.modify]
  · simp [Kernel.modify, hr]

theorem read_but_sigq :
    (psignal_read k).2.procs r = { k.procs r with sigq := ((psignal_read k).2.procs r).sigq } := by
  rw [psignal_read_eq]
  split
  · exact modify_but_sigq fun q => q.sigq.unlock
  · exact modify_but_sigq fun q => q.sigq.unlock.pop

theorem hook_but_sigq {callback : UInt64} : (psignal_hook k callback).procs r =
    { k.procs r with sigq := ((psignal_hook k callback).procs r).sigq } :=
  modify_but_sigq fun q => { q.sigq with signal_callback := callback }

theorem deliver_but_sigq {x : UInt32} {p : ℕ} {dword : UInt32} : (deliver (k.keyed x) p dword).procs r =
    { k.procs r with sigq := ((deliver (k.keyed x) p dword).procs r).sigq } :=
  modify_but_sigq (k := k.keyed x) fun q => q.sigq.push (psignal_word (sender_pid (k.keyed x)) dword)

theorem sameRole_deliver {x : UInt32} {p : ℕ} {dword : UInt32} :
    (k.procs r).SameRole ((deliver (k.keyed x) p dword).procs r) :=
  sameRole_of_sigq deliver_but_sigq

theorem sameRole_link {p : ℕ} {q : Process} {mm : Mm} (hr : r ≠ p) :
    (k.procs r).SameRole ((k.link p q mm).procs r) := by
  rw [Kernel.link_procs hr]
  exact ⟨rfl, rfl, rfl, rfl⟩

/-- **Nothing changes what a process is**, not even its death. -/
theorem Kernel.WellFormed.sameRole (hw : k.WellFormed) (hE : Effect k a o k') (hr : r ≤ k.frontier) :
    (k.procs r).SameRole (k'.procs r) := by
  cases hE with
  | quiet hq =>
    rw [hq.procs]
    exact ⟨rfl, rfl, rfl, rfl⟩
  | read => exact sameRole_of_sigq read_but_sigq
  | hook => exact sameRole_of_sigq hook_but_sigq
  | queued => exact sameRole_deliver
  | handled _ _ _ hs => exact sameRole_deliver.trans (sameRole_link (Kernel.fresh_ne hs hr))
  | spawned _ hs => exact sameRole_link (Kernel.fresh_ne hs hr)
  | exited _ hs hrf =>
    rw [Kernel.killed_procs (hw.linked.ring.prev_ne (hw.running hs) (hw.ne_base hrf))]
    exact ⟨rfl, rfl, rfl, rfl⟩
  | timer =>
    rw [irq0_isr_procs]
    exact ⟨rfl, rfl, rfl, rfl⟩

/-! ### Who is new -/

/-- The process at `p` was spawned from a file. -/
structure Loaded (k : Kernel) (a : Action) (k' : Kernel) (p : ℕ) : Prop where
  fresh : k.frontier < p
  action : ∃ path uses_console, a = .initrd_spawn path (k'.procs p).perm_mask uses_console
  granted : denied k (k'.procs p).perm_mask = false
  not_handler : (k'.procs p).isHandler = false
  sigq : (k'.procs p).sigq = psignal_queue_init (k.procs p).sigq

/-- The process at `p` is a signal handler: it runs the callback of a process in the queue,
with the permissions of that process and a copy of its signals. -/
structure Handles (k k' : Kernel) (p : ℕ) : Prop where
  fresh : k.frontier < p
  handler : (k'.procs p).isHandler = true
  owner : k.Live (k'.procs p).parent
  callback : (k.procs (k'.procs p).parent).sigq.signal_callback ≠ 0
  rip : (k'.procs p).context PCTX_RIP = (k.procs (k'.procs p).parent).sigq.signal_callback
  perm_mask : (k'.procs p).perm_mask = (k.procs (k'.procs p).parent).perm_mask
  sigq : (k'.procs p).sigq = (k'.procs (k'.procs p).parent).sigq

/-- How a process comes into the queue: from a file, or as the handler of a signal. -/
inductive Arrives (k : Kernel) (a : Action) (p : ℕ) : Kernel → Prop where
  | loaded {path : List UInt8} {permissions : PPERM_T} {uses_console : UInt8} {ctx : ℕ → UInt64} {mm : Mm} :
      a = .initrd_spawn path permissions uses_console → denied k permissions = false →
      Spawned k 0 path p ctx mm → Arrives k a p (k.link p (spawned k p permissions uses_console ctx) mm)
  | handles {x : UInt32} {dest : PID_T} {dword : UInt32} {owner : ℕ} {ctx : ℕ → UInt64} {mm : Mm} :
      recipient k dest = some owner → (k.procs owner).sigq.signal_callback ≠ 0 →
      Spawned (deliver (k.keyed x) owner dword) (k.procs owner).sigq.signal_callback [] p ctx mm →
      Arrives k a p ((deliver (k.keyed x) owner dword).link p
        (spawned_handler (deliver (k.keyed x) owner dword) p owner ctx) mm)

/-- **Who was not in the queue and is now** has come into it. -/
theorem arrives (hw : k.WellFormed) (hE : Effect k a o k') {p : ℕ} (hn : ¬k.Live p) (hl : k'.Live p) :
    Arrives k a p k' := by
  have same : ∀ {k₁}, k.SameLinks k₁ → ¬k₁.Live p := fun hs h => hn (hs.live.1 h)
  cases hE with
  | quiet hq => exact absurd hl (same hq.sameLinks)
  | read => exact absurd hl (same (Kernel.sameLinks_read k))
  | hook => exact absurd hl (same (Kernel.sameLinks_hook k _))
  | queued => exact absurd hl (same (Kernel.sameLinks_deliver k _ _ _))
  | timer => exact absurd hl (same (Kernel.sameLinks_timer k _))
  | exited _ hs hr hu =>
    exact absurd ((hw.live_killed (hw.running hs) hr hu).1 hl).2 hn
  | @handled _ _ x _ dword owner h _ _ _ hr hc hs =>
    rw [(hw.deliver x owner dword).live_link hs rfl rfl, (Kernel.sameLinks_deliver k x owner dword).live] at hl
    obtain rfl : p = h := hl.resolve_left hn
    exact .handles hr hc hs
  | @spawned _ _ _ q _ _ hd hs =>
    obtain rfl : p = q := ((hw.live_link hs rfl rfl).1 hl).resolve_left hn
    exact .loaded rfl hd hs

/-- **A new process** was spawned from a file, or is a signal handler. -/
theorem created (hw : k.WellFormed) (hE : Effect k a o k') {p : ℕ} (hn : ¬k.Live p)
    (hl : k'.Live p) : Loaded k a k' p ∨ Handles k k' p := by
  cases arrives hw hE hn hl with
  | @handles x _ dword owner ctx mm hr hc hs =>
    have howner : k.Live owner := recipient_mem hr
    have hparent : (((deliver (k.keyed x) owner dword).link p
        (spawned_handler (deliver (k.keyed x) owner dword) p owner ctx) mm).procs p).parent = owner := by
      rw [Kernel.link_procs_self]
      rfl
    refine .inr ⟨hs.fresh, ?_, ?_, ?_, ?_, ?_, ?_⟩
    · rw [Kernel.link_procs_self]
      exact spawned_handler_isHandler
    · rwa [hparent]
    · rwa [hparent]
    · rw [hparent, Kernel.link_procs_self]
      exact hs.rip_given hc
    · rw [hparent, Kernel.link_procs_self]
      exact (sameRole_deliver (k := k) (r := owner)).perm_mask
    · rw [hparent, Kernel.link_procs_self, Kernel.link_procs (Kernel.fresh_ne hs (hw.le howner))]
      rfl
  | @loaded path permissions uses_console ctx mm ha hd hs =>
    have hself : (k.link p (spawned k p permissions uses_console ctx) mm).procs p =
        spawned k p permissions uses_console ctx := Kernel.link_procs_self
    refine .inl ⟨hs.fresh, ⟨path, uses_console, ?_⟩, ?_, ?_, ?_⟩
    · rw [hself, ha]
      rfl
    · rwa [hself]
    · rw [hself]
      exact spawned_isHandler
    · rw [hself]
      rfl

/-- A new process owns no driver and is ready. -/
theorem created_ready (hw : k.WellFormed) (hE : Effect k a o k') {p : ℕ} (hn : ¬k.Live p)
    (hl : k'.Live p) : (k'.procs p).n_slave_driver_groups = 0 ∧ (k'.procs p).state = .PSTATE_READY := by
  cases arrives hw hE hn hl with
  | handles =>
    rw [Kernel.link_procs_self]
    exact ⟨rfl, rfl⟩
  | loaded =>
    rw [Kernel.link_procs_self]
    exact ⟨rfl, rfl⟩

/-- The heap never shrinks. -/
theorem frontier_le (hE : Effect k a o k') : k.frontier ≤ k'.frontier := by
  cases hE with
  | quiet hq => rw [hq.sameLinks.frontier]
  | read => rw [(Kernel.sameLinks_read k).frontier]
  | hook => exact Nat.le_refl _
  | queued => exact Nat.le_refl _
  | handled _ _ _ hs => exact Nat.add_le_add_right hs.grows.head _
  | spawned _ hs => exact Nat.add_le_add_right hs.grows.head _
  | exited =>
    unfold Kernel.frontier
    rw [Kernel.killed_mm]
  | timer => rw [(Kernel.sameLinks_timer k _).frontier]

/-- The state and the context of a process change in a timer interrupt only. -/
theorem Kernel.WellFormed.unscheduled (hw : k.WellFormed) (hE : Effect k a o k') (hr : r ≤ k.frontier)
    (ha : ∀ t, a ≠ .timer t) :
    (k'.procs r).state = (k.procs r).state ∧ (k'.procs r).context = (k.procs r).context := by
  cases hE with
  | quiet hq => exact ⟨by rw [hq.procs], by rw [hq.procs]⟩
  | read => exact ⟨by rw [read_but_sigq], by rw [read_but_sigq]⟩
  | hook => exact ⟨by rw [hook_but_sigq], by rw [hook_but_sigq]⟩
  | queued => exact ⟨by rw [deliver_but_sigq], by rw [deliver_but_sigq]⟩
  | handled _ _ _ hs =>
    rw [Kernel.link_procs (Kernel.fresh_ne hs hr)]
    exact ⟨by rw [deliver_but_sigq], by rw [deliver_but_sigq]⟩
  | spawned _ hs =>
    rw [Kernel.link_procs (Kernel.fresh_ne hs hr)]
    exact ⟨rfl, rfl⟩
  | exited _ hs hrf =>
    rw [Kernel.killed_procs (hw.linked.ring.prev_ne (hw.running hs) (hw.ne_base hrf))]
    exact ⟨rfl, rfl⟩
  | timer => exact absurd rfl (ha _)

end Role

/-! ### The beginning -/

section Start

variable {k k' : Kernel} {ret_rip : UInt64}

/-- **The state at the end of `proc_init`**: one process, which runs. -/
structure Booted (k : Kernel) : Prop where
  queue : k.queue = [k.queue_base]
  queue_head : k.queue_head = k.queue_base
  current_task : k.current_task = k.queue_base
  next_pid : k.next_pid = 2
  spinning : k.spinning = false
  perm_mask : k.current.perm_mask = PPERM_SUPER_ADMIN
  flags : k.current.flags = 0
  rwlock : k.current.sigq.rwlock = 0
  next_index : k.current.sigq.next_index = 0
  signal_callback : k.current.sigq.signal_callback = 0
  cr3 : k.mm.vm.cr3 = k.current.cr3

/-- It is the only process. -/
theorem Booted.live_eq (h : Booted k) {p : ℕ} (hp : k.Live p) : p = k.current_task := by
  unfold Kernel.Live at hp
  rwa [h.queue, List.mem_singleton, ← h.current_task] at hp

theorem Booted.not_handler (h : Booted k) : k.current.isHandler = false := by
  simp [Process.isHandler, h.flags]

/-- At first there are no signal handlers. -/
theorem Booted.no_handler (h : Booted k) (hp : k.Live p) : (k.procs p).isHandler ≠ true := by
  rw [h.live_eq hp]
  exact ne_true_of_eq_false h.not_handler

/-- What `proc_init` does when it returns. -/
theorem proc_init_cases (h : proc_init k ret_rip = .ok k') : ∃ p m₁ cr3 vm stack m₂,
    kmalloc k.mm PROCESS_SIZE = .ok (p, m₁) ∧ mkpml4 m₁.vm = .ok (cr3, vm) ∧
      kmalloc_user { m₁ with vm := { vm with cr3 := cr3 } } STACK_SIZE = .ok (stack, m₂) ∧
      k' = { k with
        mm := m₂, queue_base := p, queue_head := p, current_task := p, next_pid := k.next_pid + 1
        procs := Function.update k.procs p { first_process (k.procs p) k.next_pid p with
          context := first_context (k.procs p).context cr3 (UInt64.ofNat stack + (STACK_SIZE - 10)) ret_rip } } := by
  obtain ⟨_, -, h⟩ := bind_ok.1 h
  obtain ⟨_, -, h⟩ := bind_ok.1 h
  obtain ⟨⟨p, m₁⟩, h₁, h⟩ := bind_ok.1 h
  obtain ⟨_, -, h⟩ := bind_ok.1 h
  obtain ⟨⟨cr3, vm⟩, h₂, h⟩ := bind_ok.1 h
  obtain ⟨_, -, h⟩ := bind_ok.1 h
  obtain ⟨_, -, h⟩ := bind_ok.1 h
  obtain ⟨⟨stack, m₂⟩, h₃, h⟩ := bind_ok.1 h
  obtain ⟨_, -, h⟩ := bind_ok.1 h
  refine ⟨p, m₁, cr3, vm, stack, m₂, h₁, h₂, h₃, ?_⟩
  rw [← pure_ok.1 h]
  simp [Kernel.modify, first_process]

/-- **`proc_init`** makes the first process, with a table from `mkpml4`. -/
theorem proc_init_ok (hk : k.mm.HeapOk) (hn : k.next_pid = 1) (hs : k.spinning = false)
    (h : proc_init k ret_rip = .ok k') : k'.WellFormed ∧ Booted k' ∧
      ∃ p m₁ vm, kmalloc k.mm PROCESS_SIZE = .ok (p, m₁) ∧ mkpml4 m₁.vm = .ok (k'.current.cr3, vm) ∧
        vm.pmm.Takes k'.mm.vm.pmm := by
  obtain ⟨p, m₁, cr3, vm, stack, m₂, h₁, h₂, h₃, hinit⟩ := proc_init_cases h
  obtain ⟨hg₁, hp, hlt⟩ := hk.kmalloc_ok (by decide) h₁
  have hk₁ : m₁.HeapOk := hk.grows hg₁
  have hg₂ := kmalloc_user_ok (m := { m₁ with vm := { vm with cr3 := cr3 } }) hk₁.used h₃
  obtain ⟨q, hq, hk'⟩ : ∃ q : Process, q = { first_process (k.procs p) 1 p with
      context := first_context (k.procs p).context cr3 (UInt64.ofNat stack + (STACK_SIZE - 10)) ret_rip } ∧
      k' = { k with
        mm := m₂, queue_base := p, queue_head := p, current_task := p, next_pid := 2
        procs := Function.update k.procs p q } := by
    refine ⟨_, rfl, ?_⟩
    rw [hinit, hn]
    rfl
  have hproc : k'.procs p = q := by rw [hk']; simp
  have hnext : q.next = p := by rw [hq]; rfl
  have hl : k'.Linked [p] := by
    rw [hk']
    refine ⟨Lib.Ring.singleton (by simpa using hnext), fun r hr => ?_⟩
    rw [List.mem_singleton.1 hr, hp]
    exact Nat.add_le_add_right hg₂.head _
  have hqueue := hl.queue_eq
  have hmem : k'.Live p := by
    unfold Kernel.Live
    rw [hqueue]
    exact List.mem_singleton_self p
  have hcur : k'.current = q := by
    rw [← hproc, hk']
    rfl
  have hcr3 : m₂.vm.cr3 = cr3 := hg₂.vm.cr3
  have hcr3' : k'.current.cr3 = cr3 := by
    rw [hcur, hq]
    rfl
  refine ⟨⟨hqueue ▸ hl, ?_, ?_, ?_, fun _ => ?_, fun hd => ?_⟩,
    ⟨?_, ?_, ?_, ?_, ?_, ?_, ?_, ?_, ?_, ?_, ?_⟩, p, m₁, vm, h₁, hcr3'.symm ▸ h₂, ?_⟩
  · rw [hk']
    exact ⟨hg₂.used hk₁.used, hg₂.bytes_allocated.trans hk₁.bytes_allocated⟩
  · rw [show k'.queue_base = p by rw [hk'], hproc, hq]
    rfl
  · rw [show k'.current_task = p by rw [hk']]
    exact hl.below p (List.mem_singleton_self p)
  · rwa [show k'.current_task = p by rw [hk']]
  · rw [hk'] at hd
    exact absurd hd (by simp [hs])
  · rw [hqueue, hk']
  · rw [hk']
  · rw [hk']
  · rw [hk']
  · rw [hk']
    exact hs
  · rw [hcur, hq]
    rfl
  · rw [hcur, hq]
    rfl
  · rw [hcur, hq]
    rfl
  · rw [hcur, hq]
    rfl
  · rw [hcur, hq]
    rfl
  · rw [hcr3', show k'.mm = m₂ by rw [hk'], hcr3]
  · rw [show k'.mm = m₂ by rw [hk']]
    exact hg₂.vm.pmm

theorem Started.booted (h : Started k) : k.WellFormed ∧ Booted k := by
  obtain ⟨k₀, ret_rip, hp, h⟩ := h
  obtain ⟨mm, hmm, h⟩ := bind_ok.1 h
  obtain ⟨hu, hb, -⟩ := kheap_init_ok hmm
  have hi := proc_init_ok (k := { k₀ with mm }) ⟨hu, hb.trans hp.bytes_allocated⟩ hp.next_pid hp.spinning h
  exact ⟨hi.1, hi.2.1⟩

end Start

section Run

variable {k k' : Kernel} {C : Kernel → Action × UInt64 → Prop} {es : List (Action × UInt64)}

/-- A step from a well-formed state has its effect. -/
theorem Step.effect {e : Action × UInt64} (hw : k.WellFormed) (h : Step k e k') :
    Effect k e.1 e.2 k' := act_effect hw h.1 h.2

theorem Step.wellFormed {e : Action × UInt64} (hw : k.WellFormed) (h : Step k e k') : k'.WellFormed :=
  hw.effect (h.effect hw)

/-- **Every state a run reaches is well formed.** -/
theorem RunsTo.wellFormed (h : RunsTo C es k) : k.WellFormed := by
  obtain ⟨k₀, hs, hr⟩ := h
  exact hr.invariant hs.booted.1 fun hw _ hS => hS.wellFormed hw

/-- **Invariants of runs**, shown against the effects. -/
theorem RunsTo.invariant {I : Kernel → Prop} (h : RunsTo C es k)
    (h₀ : ∀ {k}, k.WellFormed → Booted k → I k)
    (hs : ∀ {k k' a o}, k.WellFormed → I k → C k (a, o) → Effect k a o k' → I k') : I k := by
  obtain ⟨k₀, hb, hr⟩ := h
  refine (hr.invariant (I := fun k => k.WellFormed ∧ I k) ⟨hb.booted.1, h₀ hb.booted.1 hb.booted.2⟩
    fun hI hC hS => ?_).2
  exact ⟨hS.wellFormed hI.1, hs hI.1 hI.2 hC (hS.effect hI.1)⟩

theorem Reachable.wellFormed (h : Reachable k) : k.WellFormed := by
  obtain ⟨es, h⟩ := h
  exact h.wellFormed

end Run

end Iridium
