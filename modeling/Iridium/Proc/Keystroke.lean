import Iridium.Proc.Busy

/-!
# Whether a stored keystroke was told of

`irq1_isr` stores a keystroke and sends process 1 a signal; when nobody takes the signal the keystroke
should go, since no key is reported while one is stored. The handler takes it back for `-EBUSY` only. A
queue that is full answers `-EREJECTED`, and the keystroke stays where nobody looks for it.

`keystroke_told_iff` has the condition: that the queue of process 1 has room.
-/

namespace Iridium

/-- The packet of the key that the interrupt reports. -/
def packet (port beyond : UInt8) : UInt32 :=
  keystroke_packet (SC_ASCII.getD port.toNat beyond).toInt8 port.toUInt16

/-- **The interrupt** stores the keystroke and has its signal accepted, or leaves what was stored. -/
def KeyTold (k : Kernel) (port beyond : UInt8) : Prop :=
  ∀ k', irq1_isr k port beyond = .ok k' → k'.last_keystroke = k.last_keystroke ∨
    (k'.last_keystroke = packet port beyond ∧ TakesSignal (k.keyed (packet port beyond)) 1 0x9961A7A)

/-- The signal queue of process 1 has room. -/
def InitHasRoom (k : Kernel) : Prop := (k.procs k.queue_base).sigq.next_index < PSIGNAL_QUEUE_SIZE

instance (k : Kernel) : Decidable (InitHasRoom k) := inferInstanceAs (Decidable (_ < _))

/-- A key is reported only when the queue of process 1 has room. -/
def KeyHasRoom (k : Kernel) (a : Action) : Prop :=
  ∀ port beyond, a = .keyboard port beyond → reports k port beyond = true → InitHasRoom k

/-- The entry is of an interrupt that stored the packet and had its signal accepted. -/
def Tells (e : Entry) (x : UInt32) : Prop :=
  ∃ port beyond, e.2.1 = .keyboard port beyond ∧ reports e.1 port beyond = true ∧ x = packet port beyond ∧
    TakesSignal (e.1.keyed x) 1 0x9961A7A

/-- **What is stored** was told of, and has been there since. -/
def StoredTold (es : List Entry) (k : Kernel) : Prop :=
  k.last_keystroke ≠ 0 → ∃ es₁ e es₂, es = es₁ ++ e :: es₂ ∧ Tells e k.last_keystroke ∧
    ∀ f ∈ es₂, f.1.last_keystroke = k.last_keystroke

section Keystroke

variable {k k' : Kernel} {a : Action} {o : UInt64} {port beyond : UInt8} {es : List Entry}

/-- A packet says that its key is pressed. -/
theorem packet_ne_zero : packet port beyond ≠ 0 := by
  intro h
  have hor := congrArg UInt32.toNat h
  rw [packet, keystroke_packet, UInt32.or_assoc, UInt32.toNat_or] at hor
  have hle := Nat.left_le_or (n := ((1 : UInt32) <<< 24).toNat)
    (m := (((SC_ASCII.getD port.toNat beyond).toInt8.toInt32.toUInt32 <<< 16) ||| port.toUInt16.toUInt32).toNat)
  rw [hor] at hle
  exact absurd hle (by decide)

theorem reports_zero (h : reports k port beyond = true) : k.last_keystroke = 0 := by
  simp only [reports, Bool.and_eq_true, beq_iff_eq] at h
  exact h.2

/-- A signal to process 1 comes to the first process. -/
theorem Kernel.WellFormed.find_init (hw : k.WellFormed) :
    k.queue.find? (fun p => (k.procs p).pid == 1) = some k.queue_base := by
  obtain ⟨l, hl⟩ := List.head?_eq_some_iff.1 hw.linked.ring.first
  rw [hl, List.find?_cons_of_pos (by simp [hw.init])]

/-- The state in which the signal is sent. -/
theorem Kernel.WellFormed.linked_keyed (hw : k.WellFormed) (x : UInt32) : (k.keyed x).Linked k.queue :=
  hw.linked.congr rfl rfl (Nat.le_refl _) fun _ _ => ⟨rfl, rfl⟩

theorem Sent.last_keystroke {l : List ℕ} {dest : PID_T} {dword : UInt32} {e : ERRNO_T}
    (h : Sent k l dest dword e k') : k'.last_keystroke = k.last_keystroke := by
  cases h <;> rfl

theorem exit_last_keystroke (hw : k.WellFormed) (hs : k.spinning = false) (h : exit k = .ok k') :
    k'.last_keystroke = k.last_keystroke := by
  rcases exit_ok hw.linked hw.init (hw.running hs) h with ⟨-, rfl⟩ | ⟨-, -, pmm, -, rfl⟩
  · rfl
  · unfold killed
    rw [Kernel.unlink_eq]
    rfl

theorem drv_claim_last_keystroke (k : Kernel) (driver_type : UInt32) :
    (drv_claim k driver_type).2.last_keystroke = k.last_keystroke := by
  unfold drv_claim
  repeat' split
  all_goals rfl

/-- A service fetches the keystroke, or leaves it. -/
theorem sysreq_last_keystroke {service_num : UInt32} {request : UInt64}
    {r : UAPI_STATUS_T × Option UInt64 × Kernel} (h : sysreq k service_num request = .ok r) :
    r.2.2.last_keystroke = k.last_keystroke ∨ r.2.2.last_keystroke = 0 := by
  unfold sysreq at h
  split at h
  · obtain rfl := Except.ok.inj h
    unfold keyboard_uapi
    split
    · exact .inr rfl
    · exact .inl rfl
  split at h
  · obtain ⟨⟨status, screen, fb⟩, -, h⟩ := bind_ok.1 h
    obtain rfl := pure_ok.1 h
    exact .inl rfl
  split at h
  · obtain rfl := Except.ok.inj h
    unfold procinfo_uapi
    split <;> exact .inl rfl
  · obtain rfl := Except.ok.inj h
    exact .inl rfl

/-- **Nothing but the keyboard** stores a keystroke. -/
theorem act_last_keystroke (hw : k.WellFormed) (he : Enabled k a) (h : act k a = .ok (o, k'))
    (ha : ∀ port beyond, a ≠ .keyboard port beyond) :
    k'.last_keystroke = k.last_keystroke ∨ k'.last_keystroke = 0 := by
  cases a with
  | initrd_spawn path permissions uses_console =>
    obtain ⟨⟨pid, k₁⟩, h₁, h⟩ := bind_ok.1 h
    obtain ⟨-, rfl⟩ := Prod.mk.inj (pure_ok.1 h)
    rcases _initrd_spawn_ok hw.linked hw.heap h₁ with ⟨-, -, rfl⟩ | ⟨-, -, p, ctx, mm, -, rfl⟩
    · exact .inl rfl
    · exact .inl rfl
  | psignal_send dest dword =>
    obtain ⟨⟨e, k₁⟩, h₁, h⟩ := bind_ok.1 h
    obtain ⟨-, rfl⟩ := Prod.mk.inj (pure_ok.1 h)
    exact .inl (psignal_send_ok hw.linked hw.heap h₁).last_keystroke
  | psignal_read =>
    have hk : k' = (psignal_read k).2 := ((Prod.mk.inj (Except.ok.inj h)).2).symm
    rw [hk, psignal_read_eq]
    split <;> exact .inl rfl
  | psignal_hook callback =>
    obtain ⟨-, rfl⟩ := Prod.mk.inj (Except.ok.inj h)
    exact .inl rfl
  | drv_claim driver_type =>
    obtain ⟨-, rfl⟩ := Prod.mk.inj (Except.ok.inj h)
    exact .inl (drv_claim_last_keystroke k driver_type)
  | sysreq service_num request uninit =>
    obtain ⟨⟨status, output, k₁⟩, h₁, h⟩ := bind_ok.1 h
    obtain ⟨-, rfl⟩ := Prod.mk.inj (pure_ok.1 h)
    exact sysreq_last_keystroke h₁
  | con_out string color =>
    obtain ⟨console, -, h⟩ := bind_ok.1 h
    obtain ⟨-, rfl⟩ := Prod.mk.inj (pure_ok.1 h)
    exact .inl rfl
  | exit =>
    obtain ⟨k₁, h₁, h⟩ := bind_ok.1 h
    obtain ⟨-, rfl⟩ := Prod.mk.inj (pure_ok.1 h)
    exact .inl (exit_last_keystroke hw (he.runs rfl) h₁)
  | fault =>
    obtain ⟨k₁, h₁, h⟩ := bind_ok.1 h
    obtain ⟨-, rfl⟩ := Prod.mk.inj (pure_ok.1 h)
    unfold handle_exception at h₁
    split at h₁
    · cases h₁
    · exact .inl (exit_last_keystroke hw (he.runs rfl) h₁)
  | timer t =>
    obtain ⟨-, rfl⟩ := Prod.mk.inj (Except.ok.inj h)
    rw [irq0_isr_fst]
    exact .inl rfl
  | keyboard port beyond => exact absurd rfl (ha port beyond)

/-- The signal of the keyboard. -/
theorem psignal_send_init (hw : k.WellFormed) (x dword : UInt32) : psignal_send (k.keyed x) 1 dword =
    if (k.procs k.queue_base).sigq.next_index ≥ PSIGNAL_QUEUE_SIZE then pure (-EREJECTED, k.keyed x)
    else if (k.procs k.queue_base).sigq.rwlock = 1 then pure (-EBUSY, k.keyed x)
    else do return (EXIT_SUCCESS, ← psignal_exec_callback (deliver (k.keyed x) k.queue_base dword) k.queue_base) :=
  psignal_send_found (hw.linked_keyed x) hw.find_init

/-- It is accepted exactly when process 1 takes it. -/
theorem takesSignal_init (hw : k.WellFormed) {x dword : UInt32} :
    TakesSignal (k.keyed x) 1 dword ↔ Accepts k k.queue_base :=
  (takesSignal_iff (hw.linked_keyed x) hw.find_init).trans
    ⟨fun h => ⟨h.room, h.unlocked⟩, fun h => ⟨h.room, h.unlocked⟩⟩

/-- A reported key, when the queue of process 1 has no room. -/
theorem irq1_isr_full (hw : k.WellFormed) (hr : reports k port beyond = true) (hfull : ¬InitHasRoom k) :
    irq1_isr k port beyond = .ok (k.keyed (packet port beyond)) := by
  have hsend := psignal_send_init hw (packet port beyond) 0x9961A7A
  rw [if_pos (UInt8.not_lt.1 hfull)] at hsend
  rw [irq1_isr_eq, if_pos hr]
  change psignal_send (k.keyed (packet port beyond)) 1 0x9961A7A >>= _ = _
  rw [hsend]
  rfl

/-- And when it has. -/
theorem irq1_isr_room (hw : k.WellFormed) (hr : reports k port beyond = true) (hroom : InitHasRoom k)
    (h : irq1_isr k port beyond = .ok k') : k'.last_keystroke = k.last_keystroke ∨
      (k'.last_keystroke = packet port beyond ∧ TakesSignal (k.keyed (packet port beyond)) 1 0x9961A7A) := by
  have hsend := psignal_send_init hw (packet port beyond) 0x9961A7A
  rw [if_neg (UInt8.not_le.2 hroom)] at hsend
  rw [irq1_isr_eq, if_pos hr] at h
  obtain ⟨⟨e, k₁⟩, h₁, h⟩ := bind_ok.1 h
  by_cases hlock : (k.procs k.queue_base).sigq.rwlock = 1
  · -- the one error that is looked for
    rw [if_pos hlock] at hsend
    obtain ⟨rfl, rfl⟩ := Prod.mk.inj (Except.ok.inj (hsend.symm.trans h₁))
    obtain rfl := pure_ok.1 h
    exact .inl (reports_zero hr).symm
  · have hacc : TakesSignal (k.keyed (packet port beyond)) 1 0x9961A7A :=
      (takesSignal_init hw).2 ⟨hroom, hlock⟩
    obtain rfl := hacc.success h₁
    obtain rfl := pure_ok.1 h
    have hsent := psignal_send_ok (hw.linked_keyed (packet port beyond)) hw.heap h₁
    exact .inr ⟨hsent.last_keystroke, hacc⟩

/-- **One interrupt.** -/
theorem keyTold_iff (hw : k.WellFormed) :
    KeyTold k port beyond ↔ KeyHasRoom k (.keyboard port beyond) := by
  constructor
  · intro h p b heq hr
    obtain ⟨rfl, rfl⟩ := Action.keyboard.inj heq
    by_contra hfull
    rcases h _ (irq1_isr_full hw hr hfull) with hsame | ⟨-, hacc⟩
    · exact packet_ne_zero (hsame.trans (reports_zero hr))
    · exact hfull ((takesSignal_init hw).1 hacc).room
  · intro h k' hk
    cases hr : reports k port beyond with
    | true => exact irq1_isr_room hw hr (h port beyond rfl hr) hk
    | false =>
      rw [irq1_isr_eq, hr] at hk
      obtain rfl := Except.ok.inj hk
      exact .inl rfl

/-- What is stored stays told of as long as it stays. -/
theorem StoredTold.same {e : Entry} (h : StoredTold es k) (he : e.1 = k)
    (hk : k'.last_keystroke = k.last_keystroke ∨ k'.last_keystroke = 0) : StoredTold (es ++ [e]) k' := by
  intro hne
  have hsame := hk.resolve_right hne
  rw [hsame] at hne ⊢
  obtain ⟨es₁, d, es₂, rfl, ht, hall⟩ := h hne
  refine ⟨es₁, d, es₂ ++ [e], by simp, ht, fun f hf => ?_⟩
  rcases List.mem_append.1 hf with hf | hf
  · exact hall f hf
  · rw [List.mem_singleton.1 hf, he]

/-- **A step.** -/
theorem StoredTold.step (hw : k.WellFormed) (h : StoredTold es k) (hC : KeyHasRoom k a)
    (hS : Step k (a, o) k') : StoredTold (es ++ [(k, a, o)]) k' := by
  by_cases ha : ∃ port beyond, a = .keyboard port beyond
  · obtain ⟨port, beyond, rfl⟩ := ha
    obtain ⟨k₁, h₁, h₂⟩ := bind_ok.1 hS.2
    obtain ⟨-, rfl⟩ := Prod.mk.inj (pure_ok.1 h₂)
    cases hr : reports k port beyond with
    | false =>
      rw [irq1_isr_eq, hr] at h₁
      obtain rfl := Except.ok.inj h₁
      exact h.same rfl (.inl rfl)
    | true =>
      rcases irq1_isr_room hw hr (hC port beyond rfl hr) h₁ with hsame | ⟨hnew, hacc⟩
      · exact h.same rfl (.inl hsame)
      · intro _
        rw [hnew]
        exact ⟨es, _, [], rfl, ⟨port, beyond, rfl, hr, rfl, hacc⟩, fun f hf => by cases hf⟩
  · exact h.same rfl (act_last_keystroke hw hS.1 hS.2 fun port beyond he => ha ⟨port, beyond, he⟩)

end Keystroke

/-! ### Results -/

/-- **In every run** from the zero that `last_keystroke` is initialised with: the next keyboard interrupt
stores its keystroke and has its signal accepted, or leaves what was stored, if and only if the queue of
process 1 has room when a key is reported; and if it had for each key so far, what is stored was told of. -/
theorem keystroke_told_iff {k₀ k : Kernel} {es : List Entry} (h₀ : Started k₀) (hz : k₀.last_keystroke = 0)
    (h : Lib.Run Logged (fun k e => Always k e.2) k₀ es k) :
    (∀ port beyond, KeyTold k port beyond ↔ KeyHasRoom k (.keyboard port beyond)) ∧
      ((∀ e ∈ es, KeyHasRoom e.1 e.2.1) → StoredTold es k) := by
  obtain ⟨hw, -⟩ := h₀.booted
  have hwk : k.WellFormed := h.invariant hw fun hw _ hS => by
    obtain ⟨rfl, hS⟩ := hS
    exact hS.wellFormed hw
  refine ⟨fun port beyond => keyTold_iff hwk, fun hroom => ?_⟩
  refine ((h.and_mem hroom).history (I := fun es k => k.WellFormed ∧ StoredTold es k)
    ⟨hw, fun hne => absurd hz hne⟩ fun {es t u e} hI hC hS => ?_).2
  obtain ⟨rfl, hS⟩ := hS
  exact ⟨hS.wellFormed hI.1, hI.2.step hI.1 hC.2 hS⟩

/-- Booting stores no keystroke. -/
theorem start_last_keystroke {k k₀ : Kernel} {ret_rip : UInt64} (h : start k₀ ret_rip = .ok k) :
    k.last_keystroke = k₀.last_keystroke := by
  obtain ⟨mm, -, h⟩ := bind_ok.1 h
  obtain ⟨p, m₁, cr3, vm, stack, m₂, -, -, -, rfl⟩ := proc_init_cases h
  rfl

/-- The key `a` is pressed: it is stored, and process 1 has a signal. -/
theorem keystroke_told_a : ∃ es k, Reachable k ∧ k.last_keystroke = packet 0x1E 0 ∧ StoredTold es k := by
  have ht : answers (start machine 0x1234 >>= fun k => runs (fun k _ => InitHasRoom k) k [.keyboard 0x1E 0])
      (fun k => k.last_keystroke == packet 0x1E 0) = true := by decide +kernel
  obtain ⟨k, hk, ht⟩ := answers_iff.1 ht
  obtain ⟨k₀, h₀, hr⟩ := bind_ok.1 hk
  obtain ⟨es, hr⟩ := runs_ok hr
  obtain ⟨fs, hf, -⟩ := logged hr
  have hstart : Started k₀ := ⟨machine, _, machine_powerOn, h₀⟩
  have hroom : ∀ e ∈ fs, KeyHasRoom e.1 e.2.1 := hf.forall_mem fun hC hS _ _ _ _ => by
    obtain ⟨rfl, -⟩ := hS
    exact hC
  have hrun : Lib.Run Logged (fun k e => Always k e.2) k₀ fs k := hf.mono fun _ _ _ => trivial
  exact ⟨fs, k, ⟨es, k₀, hstart, hr.mono fun _ _ _ => trivial⟩, beq_iff_eq.1 ht,
    (keystroke_told_iff hstart (start_last_keystroke h₀) hrun).2 hroom⟩

/-- The signal handler of process 1 reads twice, which leaves the index of its queue at 255, and the key `a`
is pressed. -/
theorem not_key_told : ¬∀ k, Reachable k → ∀ port beyond, KeyTold k port beyond := by
  obtain ⟨es, k, h, hn⟩ := traces_true Always (fun k => reports k 0x1E 0 && !decide (InitHasRoom k))
    [.psignal_hook 0x5000, .psignal_send 1 7, .timer quietTick, .psignal_read, .psignal_read] (by decide +kernel)
  simp only [Bool.and_eq_true, Bool.not_eq_true', decide_eq_false_iff_not] at hn
  intro hall
  exact hn.2 ((keyTold_iff h.wellFormed).1 (hall k ⟨es, h⟩ 0x1E 0) 0x1E 0 rfl hn.1)

end Iridium
