import Iridium.Proc.Keystroke

/-!
# The keystrokes that are served

`last_keystroke` is a buffer for one keystroke, between the keyboard interrupt and whoever calls the keyboard
service. Any process may call it, at any time. `keystrokes_served` says what the callers together see: of every
keystroke that was stored, but for one that is still there, exactly one of them was told, in the order in which the
keys were pressed; and nobody was told of anything else.

A key is lost, then, only at the door: when another is still stored, or when process 1 is busy.
-/

namespace Iridium

/-- Process 1 answers the keyboard with `-EBUSY`. -/
def init_busy (k : Kernel) : Bool :=
  (k.procs k.queue_base).sigq.next_index < PSIGNAL_QUEUE_SIZE && (k.procs k.queue_base).sigq.rwlock == 1

/-- The keystroke that is stored. -/
def key_stored (e : Entry) : Option UInt64 :=
  match e.2.1 with
  | .keyboard port beyond =>
    if reports e.1 port beyond && !init_busy e.1 then some (packet port beyond).toUInt64 else none
  | _ => none

/-- The action is a call of the keyboard service for a keystroke. -/
def Action.fetches_key : Action → Bool
  | .sysreq service_num request _ => service_num == 0 && request == 0
  | _ => false

/-- The keystroke that the caller of the service is told, if it is not zero. -/
def key_served (e : Entry) : Option UInt64 := if e.2.1.fetches_key && e.2.2 != 0 then some e.2.2 else none

/-- The keystroke that nobody was told yet. -/
def key_pending (k : Kernel) : List UInt64 := if k.last_keystroke = 0 then [] else [k.last_keystroke.toUInt64]

section Keys

variable {k k' : Kernel} {a : Action} {o : UInt64} {es : List Entry} {port beyond : UInt8}

/-- A service that is not asked for a keystroke leaves it. -/
theorem sysreq_keeps_key {service_num : UInt32} {request : UInt64} {r : UAPI_STATUS_T × Option UInt64 × Kernel}
    (h : sysreq k service_num request = .ok r) (hn : ¬(service_num = 0 ∧ request = 0)) :
    r.2.2.last_keystroke = k.last_keystroke := by
  unfold sysreq at h
  split at h
  next h0 =>
    obtain rfl := Except.ok.inj h
    unfold keyboard_uapi
    rw [if_neg fun hr => hn ⟨h0, hr⟩]
  split at h
  · obtain ⟨⟨status, screen, fb⟩, -, h⟩ := bind_ok.1 h
    obtain rfl := pure_ok.1 h
    rfl
  split at h
  · obtain rfl := Except.ok.inj h
    unfold procinfo_uapi
    split <;> rfl
  · obtain rfl := Except.ok.inj h
    rfl

/-- The service answers with the keystroke, and forgets it. -/
theorem fetches_key (h : act k a = .ok (o, k')) (ha : a.fetches_key = true) :
    o = k.last_keystroke.toUInt64 ∧ k'.last_keystroke = 0 := by
  cases a with
  | sysreq service_num request uninit =>
    simp only [Action.fetches_key, Bool.and_eq_true, beq_iff_eq] at ha
    obtain ⟨rfl, rfl⟩ := ha
    obtain ⟨rfl, rfl⟩ := Prod.mk.inj (Except.ok.inj h)
    exact ⟨rfl, rfl⟩
  | _ => cases ha

/-- **Nothing but the service** forgets a keystroke, the keyboard apart. -/
theorem act_keeps_key (hw : k.WellFormed) (he : Enabled k a) (h : act k a = .ok (o, k'))
    (ha : ∀ port beyond, a ≠ .keyboard port beyond) (hf : a.fetches_key = false) :
    k'.last_keystroke = k.last_keystroke := by
  cases a with
  | sysreq service_num request uninit =>
    obtain ⟨⟨status, output, k₁⟩, h₁, h⟩ := bind_ok.1 h
    obtain ⟨-, rfl⟩ := Prod.mk.inj (pure_ok.1 h)
    exact sysreq_keeps_key h₁ fun h0 => by simp [Action.fetches_key, h0.1, h0.2] at hf
  | initrd_spawn path permissions uses_console =>
    obtain ⟨⟨pid, k₁⟩, h₁, h⟩ := bind_ok.1 h
    obtain ⟨-, rfl⟩ := Prod.mk.inj (pure_ok.1 h)
    rcases _initrd_spawn_ok hw.linked hw.heap h₁ with ⟨-, -, rfl⟩ | ⟨-, -, p, ctx, mm, -, rfl⟩ <;> rfl
  | psignal_send dest dword =>
    obtain ⟨⟨e, k₁⟩, h₁, h⟩ := bind_ok.1 h
    obtain ⟨-, rfl⟩ := Prod.mk.inj (pure_ok.1 h)
    exact (psignal_send_ok hw.linked hw.heap h₁).last_keystroke
  | psignal_read =>
    have hk : k' = (psignal_read k).2 := ((Prod.mk.inj (Except.ok.inj h)).2).symm
    rw [hk, psignal_read_eq]
    split <;> rfl
  | psignal_hook callback =>
    obtain ⟨-, rfl⟩ := Prod.mk.inj (Except.ok.inj h)
    rfl
  | drv_claim driver_type =>
    obtain ⟨-, rfl⟩ := Prod.mk.inj (Except.ok.inj h)
    exact drv_claim_last_keystroke k driver_type
  | con_out string color =>
    obtain ⟨console, -, h⟩ := bind_ok.1 h
    obtain ⟨-, rfl⟩ := Prod.mk.inj (pure_ok.1 h)
    rfl
  | exit =>
    obtain ⟨k₁, h₁, h⟩ := bind_ok.1 h
    obtain ⟨-, rfl⟩ := Prod.mk.inj (pure_ok.1 h)
    exact exit_last_keystroke hw (he.runs rfl) h₁
  | fault =>
    obtain ⟨k₁, h₁, h⟩ := bind_ok.1 h
    obtain ⟨-, rfl⟩ := Prod.mk.inj (pure_ok.1 h)
    unfold handle_exception at h₁
    split at h₁
    · cases h₁
    · exact exit_last_keystroke hw (he.runs rfl) h₁
  | timer t =>
    obtain ⟨-, rfl⟩ := Prod.mk.inj (Except.ok.inj h)
    rw [irq0_isr_fst]
    rfl
  | keyboard port beyond => exact absurd rfl (ha port beyond)

/-- **The interrupt** stores the keystroke of a key that is reported, unless process 1 is busy. -/
theorem irq1_isr_stores (hw : k.WellFormed) (h : irq1_isr k port beyond = .ok k') :
    k'.last_keystroke = if reports k port beyond && !init_busy k then packet port beyond else k.last_keystroke := by
  cases hr : reports k port beyond with
  | false =>
    rw [irq1_isr_eq, hr] at h
    obtain rfl := Except.ok.inj h
    rfl
  | true =>
    have hsend := psignal_send_init hw (packet port beyond) 0x9961A7A
    rw [irq1_isr_eq, if_pos hr] at h
    obtain ⟨⟨e, k₁⟩, h₁, h⟩ := bind_ok.1 h
    by_cases hroom : InitHasRoom k
    · rw [if_neg (UInt8.not_le.2 hroom)] at hsend
      by_cases hlock : (k.procs k.queue_base).sigq.rwlock = 1
      · rw [if_pos hlock] at hsend
        obtain ⟨rfl, rfl⟩ := Prod.mk.inj (Except.ok.inj (hsend.symm.trans h₁))
        obtain rfl := pure_ok.1 h
        have hbusy : init_busy k = true := by simpa [init_busy, hlock, InitHasRoom] using hroom
        rw [hbusy]
        exact (reports_zero hr).symm
      · obtain rfl := ((takesSignal_init hw).2 ⟨hroom, hlock⟩).success h₁
        obtain rfl := pure_ok.1 h
        have hbusy : init_busy k = false := by simp [init_busy, hlock]
        rw [hbusy]
        exact (psignal_send_ok (hw.linked_keyed (packet port beyond)) hw.heap h₁).last_keystroke
    · rw [if_pos (UInt8.not_lt.1 hroom)] at hsend
      obtain ⟨rfl, rfl⟩ := Prod.mk.inj (Except.ok.inj (hsend.symm.trans h₁))
      obtain rfl := pure_ok.1 h
      have hbusy : init_busy k = false := by simp [init_busy, show ¬_ < PSIGNAL_QUEUE_SIZE from hroom]
      rw [hbusy]
      rfl

/-- The keystroke that is stored, as the service answers with it. -/
theorem toUInt64_ne_zero {x : UInt32} (h : x ≠ 0) : x.toUInt64 ≠ 0 := fun h0 => h (by
  have := congrArg UInt64.toNat h0
  exact UInt32.toNat_inj.1 (by simpa using this))

/-- **One step.** -/
theorem keys_step (hw : k.WellFormed) (h : es.filterMap key_stored = es.filterMap key_served ++ key_pending k)
    (hS : Step k (a, o) k') : (es ++ [(k, a, o)]).filterMap key_stored =
      (es ++ [(k, a, o)]).filterMap key_served ++ key_pending k' := by
  rw [Lib.filterMap_snoc, Lib.filterMap_snoc, h]
  by_cases hkey : ∃ port beyond, a = .keyboard port beyond
  · obtain ⟨port, beyond, rfl⟩ := hkey
    obtain ⟨k₁, h₁, h₂⟩ := bind_ok.1 hS.2
    obtain ⟨-, rfl⟩ := Prod.mk.inj (pure_ok.1 h₂)
    have hnew := irq1_isr_stores hw h₁
    have hserved : key_served (k, .keyboard port beyond, o) = none := rfl
    rw [hserved, key_stored]
    cases hr : reports k port beyond && !init_busy k with
    | false =>
      rw [hr] at hnew
      simp [key_pending, hnew, hr]
    | true =>
      rw [hr] at hnew
      have hz := reports_zero (Bool.and_eq_true_iff.1 hr).1
      simp [key_pending, hnew, hr, hz, packet_ne_zero]
  · have hstored : key_stored (k, a, o) = none := by
      cases a with
      | keyboard port beyond => exact absurd ⟨port, beyond, rfl⟩ hkey
      | _ => rfl
    rw [hstored]
    cases hf : a.fetches_key with
    | true =>
      obtain ⟨rfl, hz⟩ := fetches_key hS.2 hf
      by_cases h0 : k.last_keystroke = 0
      · simp [key_pending, key_served, hf, hz, h0]
      · simp [key_pending, key_served, hf, hz, h0, toUInt64_ne_zero h0]
    | false =>
      have hsame := act_keeps_key hw hS.1 hS.2 (fun port beyond he => hkey ⟨port, beyond, he⟩) hf
      simp [key_pending, key_served, hf, hsame]

end Keys

/-- **In every run** the keystrokes that were stored are those that a caller of the service was told, in order, and
the one that is stored still, if there is one. -/
theorem keystrokes_served {k₀ k : Kernel} {es : List Entry} (h₀ : Started k₀) (hz : k₀.last_keystroke = 0)
    (h : Lib.Run Logged (fun k e => Always k e.2) k₀ es k) :
    es.filterMap key_stored = es.filterMap key_served ++ key_pending k := by
  obtain ⟨hw, -⟩ := h₀.booted
  refine (h.history (I := fun es k => k.WellFormed ∧
    es.filterMap key_stored = es.filterMap key_served ++ key_pending k) ⟨hw, ?_⟩ ?_).2
  · simp [key_pending, hz]
  · rintro es t u ⟨t', a, o⟩ ⟨hw, hI⟩ - ⟨rfl, hS⟩
    exact ⟨hS.wellFormed hw, keys_step hw hI hS⟩

/-- The key `a` is pressed and fetched, then the key `b` is pressed. -/
theorem keystrokes_served_ab : ∃ k₀, ∃ es : List Entry, ∃ k, Started k₀ ∧ key_pending k = [(packet 0x30 0).toUInt64] ∧
    es.filterMap key_stored = es.filterMap key_served ++ [(packet 0x30 0).toUInt64] := by
  have ht : answers (start machine 0x1234 >>= fun k => runs Always k
      [.keyboard 0x1E 0, .psignal_read, .sysreq 0 0 7, .keyboard 0x30 0])
      (fun k => key_pending k == [(packet 0x30 0).toUInt64]) = true := by decide +kernel
  obtain ⟨k, hk, ht⟩ := answers_iff.1 ht
  obtain ⟨k₀, h₀, hr⟩ := bind_ok.1 hk
  obtain ⟨es, hr⟩ := runs_ok hr
  obtain ⟨fs, hf, -⟩ := logged hr
  have hp := beq_iff_eq.1 ht
  have hstart : Started k₀ := ⟨machine, _, machine_powerOn, h₀⟩
  exact ⟨k₀, fs, k, hstart, hp, hp ▸ keystrokes_served hstart (start_last_keystroke h₀) hf⟩

end Iridium
