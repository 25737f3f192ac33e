import Iridium.Proc.Display

/-!
# The output of a request

`sys_req` leaves its local `output` uninitialised and loads it into `rbx`, whatever the service
has done with it. A routine is told to set it to zero when it has nothing to say
(`uapi/api_routine.h`). Here two calls that differ only in what the stack held are compared:
ring 3 sees the same in both exactly when the service assigns its output, or never comes back.
-/

namespace Iridium

variable {k : Kernel} {c : Call}

/-! ### Two runs -/

/-- The call made when the stack held this word. -/
def Call.over (c : Call) (uninit : UInt64) : Call := { c with uninit }

/-- What ring 3 sees of the call in `rax` and `rbx`. -/
def seen (r : Kern (Kernel × SyscallRegs)) : Kern (UInt64 × UInt64) := do
  let (_, regs) ← r
  return (regs.rax, regs.rbx)

/-- **Nothing of the stack is seen**: two runs of `sys_req` that differ in what the stack held look
the same, and the output is zero where the service has none. -/
structure Hidden (k : Kernel) (c : Call) : Prop where
  same : ∀ u v, seen (sys_req k (c.over u)) = seen (sys_req k (c.over v))
  zero : ∀ status k' u, sysreq k c.regs.rbx.toUInt32 c.regs.rcx = .ok (status, none, k') →
    seen (sys_req k (c.over u)) = .ok (status.code, 0)

/-- The request is one of the two that a service answers with an output: to fetch a keystroke, or the
process identifier at the head of the queue. -/
def Answered (c : Call) : Prop := (c.regs.rbx.toUInt32 = 0 ∨ c.regs.rbx.toUInt32 = 2) ∧ c.regs.rcx = 0

instance (c : Call) : Decidable (Answered c) := inferInstanceAs (Decidable (_ ∧ _))

/-- The clearing of this screen never ends: a 32-bit counter runs to a larger bound. -/
def Lfb.Huge (fb : Lfb) : Prop := fb.height.toNat ≥ 2 ^ 32 ∨ (fb.height ≠ 0 ∧ fb.width.toNat ≥ 2 ^ 32)

/-- The call has the owner of the display clear a screen so large that it never comes back. -/
structure ClearsForever (k : Kernel) (c : Call) : Prop where
  screen : c.regs.rbx.toUInt32 = 1
  verified : verify_drvmaster k DRIVERTYPE_DISPLAY ≥ 0
  bursting : k.screen.cmd_bursting = true
  clears : k.screen.saved_req = SCREENUAPI_CLEARSCREEN
  last : k.screen.data_index + 1 ≥ 1
  huge : k.console.fb.Huge

/-! ### What the services assign -/

theorem keyboard_uapi_output (k : Kernel) (req : UInt64) :
    (keyboard_uapi k req).2.1.isSome = true ↔ req = 0 := by
  unfold keyboard_uapi
  by_cases h : req = 0 <;> simp [h]

theorem procinfo_uapi_output (k : Kernel) (req : UInt64) :
    (procinfo_uapi k req).2.1.isSome = true ↔ req = 0 := by
  unfold procinfo_uapi
  by_cases h : req = 0 <;> simp [h]

/-- **The services that assign**: the screen service and a service that is not there never do, the
others for their one request. -/
theorem sysreq_output {r : UAPI_STATUS_T × Option UInt64 × Kernel}
    (h : sysreq k c.regs.rbx.toUInt32 c.regs.rcx = .ok r) : r.2.1.isSome = true ↔ Answered c := by
  unfold Answered
  generalize c.regs.rbx.toUInt32 = n at h ⊢
  unfold sysreq at h
  by_cases h0 : n = 0
  · rw [if_pos h0] at h
    obtain rfl := Except.ok.inj h
    simp [h0, keyboard_uapi_output]
  by_cases h1 : n = 1
  · rw [if_neg h0, if_pos h1] at h
    obtain ⟨q, -, h⟩ := bind_ok.1 h
    obtain rfl := pure_ok.1 h
    simp [h1]
  by_cases h2 : n = 2
  · rw [if_neg h0, if_neg h1, if_pos h2] at h
    obtain rfl := Except.ok.inj h
    simp [h2, procinfo_uapi_output]
  · rw [if_neg h0, if_neg h1, if_neg h2] at h
    obtain rfl := Except.ok.inj h
    simp [h0, h2]

/-! ### The calls that come back -/

theorem lfb_clear_screen_returns (fb : Lfb) (color : UInt32) :
    (∃ fb', lfb_clear_screen fb color = .ok fb') ↔ ¬fb.Huge := by
  unfold lfb_clear_screen Lfb.Huge
  split_ifs with h
  · exact ⟨(fun ⟨_, he⟩ => by cases he), fun hn => absurd h hn⟩
  · exact ⟨fun _ => h, fun _ => ⟨_, rfl⟩⟩

/-- The service comes back unless it clears a screen that is too large. -/
theorem screen_uapi_returns (s : ScreenUapi) (fb : Lfb) (verified : Bool) (req : UInt64) :
    (∃ r, screen_uapi s fb verified req = .ok r) ↔ ¬(verified = true ∧ s.cmd_bursting = true ∧
      s.saved_req = SCREENUAPI_CLEARSCREEN ∧ s.data_index + 1 ≥ 1 ∧ fb.Huge) := by
  obtain ⟨status, s', hdraws⟩ := screen_uapi_draws s verified req
  have hdraw : (∃ r, screen_uapi s fb verified req = .ok r) ↔
      ∃ fb', draw_all fb (screen_calls s verified req) = .ok fb' := by
    rw [hdraws]
    constructor
    · rintro ⟨r, h⟩
      obtain ⟨fb', h, -⟩ := bind_ok.1 h
      exact ⟨fb', h⟩
    · rintro ⟨fb', h⟩
      exact ⟨_, bind_ok.2 ⟨fb', h, rfl⟩⟩
  have hone : ∀ call, draw_all fb [call] = call.run fb := fun call => by
    simp [draw_all]
  rw [hdraw]
  unfold screen_calls
  by_cases hb : (verified && s.cmd_bursting) = true
  · obtain ⟨hv, hb⟩ := Bool.and_eq_true_iff.1 hb
    simp only [hv, hb, Bool.and_self, if_true, true_and]
    unfold process_calls
    by_cases hclear : s.saved_req = SCREENUAPI_CLEARSCREEN
    · by_cases hlast : s.data_index + 1 ≥ 1
      · simp only [hclear, hlast, if_true, true_and]
        rw [hone]
        exact lfb_clear_screen_returns fb _
      · simp [hclear, hlast, draw_all, pure, Except.pure]
    · rw [if_neg hclear]
      refine ⟨fun _ h => hclear h.1, fun _ => ?_⟩
      by_cases hput : s.saved_req = SCREENUAPI_PUTPIXEL
      · rw [if_pos hput]
        by_cases hlast : s.data_index + 1 ≥ 3
        · exact ⟨_, by rw [if_pos hlast]; exact hone _⟩
        · exact ⟨fb, by rw [if_neg hlast]; rfl⟩
      · exact ⟨fb, by rw [if_neg hput]; rfl⟩
  · rw [if_neg hb]
    exact ⟨fun _ h => hb (by simp [h.1, h.2.1]), fun _ => ⟨fb, rfl⟩⟩

theorem sysreq_returns (k : Kernel) (c : Call) :
    (∃ r, sysreq k c.regs.rbx.toUInt32 c.regs.rcx = .ok r) ↔ ¬ClearsForever k c := by
  unfold sysreq
  by_cases h1 : c.regs.rbx.toUInt32 = 1
  · have hreturns := screen_uapi_returns k.screen k.console.fb
      (verify_drvmaster k DRIVERTYPE_DISPLAY ≥ 0) c.regs.rcx
    rw [if_neg (by rw [h1]; decide), if_pos h1]
    constructor
    · rintro ⟨r, h⟩ hf
      obtain ⟨q, hq, -⟩ := bind_ok.1 h
      exact hreturns.1 ⟨q, hq⟩ ⟨decide_eq_true hf.verified, hf.bursting, hf.clears, hf.last, hf.huge⟩
    · intro hf
      obtain ⟨q, hq⟩ := hreturns.2 fun ⟨hv, hb, hc, hl, hh⟩ => hf ⟨h1, of_decide_eq_true hv, hb, hc, hl, hh⟩
      exact ⟨_, bind_ok.2 ⟨q, hq, rfl⟩⟩
  · refine ⟨fun _ hf => h1 hf.screen, fun _ => ?_⟩
    rw [if_neg h1]
    split_ifs
    all_goals exact ⟨_, rfl⟩

/-! ### What is seen -/

/-- What is seen of a call that comes back. -/
theorem seen_ok {r : UAPI_STATUS_T × Option UInt64 × Kernel} (u : UInt64)
    (h : sysreq k c.regs.rbx.toUInt32 c.regs.rcx = .ok r) :
    seen (sys_req k (c.over u)) = .ok (r.1.code, r.2.1.getD u) := by
  have hcall : sys_req k (c.over u) =
      .ok (r.2.2, { c.regs with rax := r.1.code, rbx := r.2.1.getD u }) := bind_ok.2 ⟨r, h, rfl⟩
  rw [hcall]
  rfl

/-- What is seen of a call that does not. -/
theorem seen_error {e : Halt} (u : UInt64) (h : sysreq k c.regs.rbx.toUInt32 c.regs.rcx = .error e) :
    seen (sys_req k (c.over u)) = .error e := by
  have hcall : sys_req k (c.over u) = .error e := bind_error.2 (.inl h)
  rw [hcall]
  rfl

/-- **The stack is hidden** exactly from a call whose service assigns its output, and from one that
never comes back. -/
theorem hidden_iff (k : Kernel) (c : Call) : Hidden k c ↔ Answered c ∨ ClearsForever k c := by
  constructor
  · intro h
    by_contra! hno
    obtain ⟨r, hr⟩ := (sysreq_returns k c).2 hno.2
    have hnone : r.2.1 = none := by
      rw [← Option.not_isSome_iff_eq_none, sysreq_output hr]
      exact hno.1
    have hsame := h.same 0 1
    rw [seen_ok 0 hr, seen_ok 1 hr, hnone] at hsame
    exact absurd (Prod.mk.inj (Except.ok.inj hsame)).2 (by decide)
  · rintro (ha | hf)
    · refine ⟨fun u v => ?_, fun status k' u hr => ?_⟩
      · cases hr : sysreq k c.regs.rbx.toUInt32 c.regs.rcx with
        | error e => rw [seen_error u hr, seen_error v hr]
        | ok r =>
          obtain ⟨w, hw⟩ := Option.isSome_iff_exists.1 ((sysreq_output hr).2 ha)
          rw [seen_ok u hr, seen_ok v hr, hw]
          rfl
      · cases (sysreq_output hr).2 ha
    · have hno : ¬∃ r, sysreq k c.regs.rbx.toUInt32 c.regs.rcx = .ok r := fun h =>
        (sysreq_returns k c).1 h hf
      refine ⟨fun u v => ?_, fun status k' u hr => absurd ⟨_, hr⟩ hno⟩
      cases hr : sysreq k c.regs.rbx.toUInt32 c.regs.rcx with
      | error e => rw [seen_error u hr, seen_error v hr]
      | ok r => exact absurd ⟨r, hr⟩ hno

/-- The call of `sysreq` with these arguments. -/
def requesting (service req : UInt64) : Call := ⟨⟨1, service, req, 0, 0, 0, 0, 0, 0⟩, [], 0⟩

/-- **The stack is not hidden** from the first process that asks for a service that is not there: it
reads whatever the stack held. -/
theorem not_hidden : ∃ k, Reachable k ∧ ¬Hidden k (requesting 7 0) ∧
    seen (sys_req k ((requesting 7 0).over 0xBAD)) = .ok (UAPI_STATUS_T.UAPI_INVALID_SERVICE.code, 0xBAD) := by
  obtain ⟨es, k, hr, -⟩ := traces_true Always (fun _ => true) [] (by decide +kernel)
  have hreq : sysreq k (requesting 7 0).regs.rbx.toUInt32 (requesting 7 0).regs.rcx =
      .ok (.UAPI_INVALID_SERVICE, none, k) := rfl
  refine ⟨k, ⟨es, hr⟩, fun h => ?_, seen_ok _ hreq⟩
  have hsame := h.same 0 1
  rw [seen_ok 0 hreq, seen_ok 1 hreq] at hsame
  have hword : (0 : UInt64) = 1 := (Prod.mk.inj (Except.ok.inj hsame)).2
  exact absurd hword (by decide)

end Iridium
