import Iridium.Proc.Display

/-!
# The status of a request

A client sees of the screen service its statuses only. `UAPI_CMDBURST_CONTINUE` is for a request behind which
the command needs more (`uapi/api_routine.h`); the service answers so for arguments, but answers every word in
the place of a command with `UAPI_OK`, also one that names no command (`screen_status_iff`).
-/

namespace Iridium

open UAPI_STATUS_T Lib.Burst

/-- **The status tells the place in the burst**: `req` comes when these words are pending, and is answered with
this status. -/
structure StatusRight (p : List UInt64) (req : UInt64) (status : UAPI_STATUS_T) : Prop where
  /-- The command still needs arguments. -/
  continues : status = UAPI_CMDBURST_CONTINUE ↔ (feed screen_arity p req).2 ≠ []
  /-- A command is complete. -/
  completes : status = UAPI_OK ↔ (feed screen_arity p req).1 ≠ []
  /-- The word names no command, where one should be named. -/
  invalid : status = UAPI_INVALID_ARG ↔ p = [] ∧ screen_arity req = 0

section Status

variable {k₀ k k' : Kernel} {es : List Entry} {p : List UInt64} {cs : List (UInt64 × List UInt64)}
  {req : UInt64} {status : UAPI_STATUS_T} {output : Option UInt64}

/-- **The answer is right for an argument**, and only for one. -/
theorem answered_right_iff : StatusRight p req (answered p) ↔ p ≠ [] := by
  cases p with
  | nil =>
    refine ⟨fun h _ => ?_, fun h => absurd rfl h⟩
    -- a word in the place of a command completes none
    refine h.completes.1 rfl ?_
    rw [feed]
    split <;> rfl
  | cons c args =>
    refine iff_of_true ?_ (List.cons_ne_nil _ _)
    rw [answered]
    by_cases hmore : args.length + 1 < screen_arity c
    · rw [if_pos hmore]
      refine ⟨iff_of_true rfl ?_, iff_of_false (by decide) ?_, iff_of_false (by decide) fun h => by cases h.1⟩
      · rw [feed, if_pos hmore]
        exact List.cons_ne_nil _ _
      · rw [feed, if_pos hmore]
        exact not_not.2 rfl
    · rw [if_neg hmore]
      refine ⟨iff_of_false (by decide) ?_, iff_of_true rfl ?_, iff_of_false (by decide) fun h => by cases h.1⟩
      · rw [feed, if_neg hmore]
        exact not_not.2 rfl
      · rw [feed, if_neg hmore]
        exact List.cons_ne_nil _ _

/-- A request of the owner that is answered. -/
theorem Served.answer (h : Served es k) (hp : Parse screen_arity (owner_words es) cs p)
    (hm : Masters k k.current_task DRIVERTYPE_DISPLAY) (hs : sysreq k 1 req = .ok (status, output, k')) :
    status = answered p := by
  obtain ⟨cs', p', hp', -, hr⟩ := h
  obtain ⟨-, rfl⟩ := hp.unique hp'
  obtain ⟨s', -, -, hdraw⟩ := hr.feed req
  rw [sysreq_screen, verified_iff.2 hm, hdraw] at hs
  obtain ⟨⟨status', screen, fb⟩, h₁, h₂⟩ := bind_ok.1 hs
  obtain ⟨fb', -, h₁⟩ := bind_ok.1 h₁
  obtain ⟨rfl, -⟩ := Prod.mk.inj (pure_ok.1 h₁)
  exact (Prod.mk.inj (pure_ok.1 h₂)).1.symm

/-- **In every run**, for the next request of the display's owner: its status tells the place in the burst if
and only if the word comes as an argument, behind a word that named a command. -/
theorem screen_status_iff (h₀ : Started k₀) (h : Lib.Run Logged (fun k e => Always k e.2) k₀ es k)
    (hm : Masters k k.current_task DRIVERTYPE_DISPLAY) (hp : Parse screen_arity (owner_words es) cs p)
    (hs : sysreq k 1 req = .ok (status, output, k')) : StatusRight p req status ↔ p ≠ [] := by
  rw [(Served.run h₀ h).2.1.answer hp hm hs]
  exact answered_right_iff

/-- The variables say whether words are pending. -/
theorem Represents.bursting {s : ScreenUapi} (h : Represents s p) : s.cmd_bursting = true ↔ p ≠ [] := by
  match p, h with
  | [], ⟨hb, _⟩ => simp [hb]
  | [_], ⟨hb, _⟩ => simp [hb]
  | [_, _], ⟨hb, _⟩ => simp [hb]
  | [_, _, _], ⟨hb, _⟩ => simp [hb]

/-- The first process claims the display and sends these words; then it sends another. -/
theorem owner_sends (ws : List UInt64) (req : UInt64) (b : Kernel → Bool)
    (h : traces Always (.drv_claim 1 :: ws.map (.sysreq 1 · 0)) (fun k =>
      decide (Masters k k.current_task DRIVERTYPE_DISPLAY) && answers (sysreq k 1 req) (fun _ => true) && b k) = true) :
    ∃ k₀ es k cs p status output k', Started k₀ ∧ Lib.Run Logged (fun k e => Always k e.2) k₀ es k ∧
      Masters k k.current_task DRIVERTYPE_DISPLAY ∧ Parse screen_arity (owner_words es) cs p ∧
      sysreq k 1 req = .ok (status, output, k') ∧ (k.screen.cmd_bursting = true ↔ p ≠ []) ∧ b k = true := by
  obtain ⟨es, k, ⟨k₀, h₀, h⟩, hb⟩ := traces_true _ _ _ h
  obtain ⟨fs, hr, -⟩ := logged h
  rw [Bool.and_eq_true, Bool.and_eq_true, decide_eq_true_eq] at hb
  obtain ⟨⟨hm, ha⟩, hb⟩ := hb
  obtain ⟨⟨status, output, k'⟩, hs, -⟩ := answers_iff.1 ha
  obtain ⟨cs, p, hp, -, hrep⟩ := (Served.run h₀ hr).2.1
  exact ⟨k₀, fs, k, cs, p, status, output, k', h₀, hr, hm, hp, hs, hrep.bursting, hb⟩

end Status

/-- The first argument of a command. -/
theorem screen_status_argument : ∃ k₀ es k p status output k', Started k₀ ∧
    Lib.Run Logged (fun k e => Always k e.2) k₀ es k ∧ sysreq k 1 5 = .ok (status, output, k') ∧
    StatusRight p 5 status := by
  obtain ⟨k₀, es, k, cs, p, status, output, k', h₀, hr, hm, hp, hs, hburst, hb⟩ :=
    owner_sends [1] 5 (fun k => k.screen.cmd_bursting) (by decide +kernel)
  exact ⟨k₀, es, k, p, status, output, k', h₀, hr, hs, (screen_status_iff h₀ hr hm hp hs).2 (hburst.1 hb)⟩

/-- The first word of the owner names a command, which needs three arguments, and is answered with `UAPI_OK`. -/
theorem not_status_right : ¬∀ (k₀ k k' : Kernel) (es : List Entry) (p : List UInt64) (cs : List (UInt64 × List UInt64))
    (req : UInt64) (status : UAPI_STATUS_T) (output : Option UInt64), Started k₀ →
      Lib.Run Logged (fun k e => Always k e.2) k₀ es k → Masters k k.current_task DRIVERTYPE_DISPLAY →
        Parse screen_arity (owner_words es) cs p → sysreq k 1 req = .ok (status, output, k') →
          StatusRight p req status := by
  intro h
  obtain ⟨k₀, es, k, cs, p, status, output, k', h₀, hr, hm, hp, hs, hburst, hb⟩ :=
    owner_sends [] 1 (fun k => !k.screen.cmd_bursting) (by decide +kernel)
  have hright := h k₀ k k' es p cs 1 status output h₀ hr hm hp hs
  rw [(Served.run h₀ hr).2.1.answer hp hm hs, answered_right_iff, ← hburst] at hright
  rw [hright] at hb
  cases hb

end Iridium
