import Iridium.Proc.Drivers
import Iridium.Lib.Burst

/-!
# The screen service and its owner

The words that the owner of the display sends to the screen service are commands with their
arguments: `0` clears the screen with one colour, `1` puts a pixel at two coordinates with a
colour. The service keeps the place it has reached in the burst in six static variables;
`Represents` says what they hold. What it draws is what the owner's words say, and the words of
everybody else are turned away (`screen_served`).
-/

namespace Iridium

open UAPI_STATUS_T

/-! ### What is drawn -/

/-- A call of the framebuffer driver. -/
inductive LfbCall where
  | lfb_clear_screen (color : UInt32)
  | lfb_put_pixel (x y color : UInt32)
  deriving DecidableEq, Repr

/-- The call made. -/
def LfbCall.run (fb : Lfb) : LfbCall → Kern Lfb
  | .lfb_clear_screen color => Iridium.lfb_clear_screen fb color
  | .lfb_put_pixel x y color => .ok (Iridium.lfb_put_pixel fb x y color)

/-- The calls made, in order. -/
def draw_all (fb : Lfb) (calls : List LfbCall) : Kern Lfb := calls.foldlM LfbCall.run fb

/-- The calls that `process_req` makes. -/
def process_calls (s : ScreenUapi) (saved_req req : UInt64) : List LfbCall :=
  if saved_req = SCREENUAPI_CLEARSCREEN then
    let color := if s.data_index = 0 then req else s.color
    if s.data_index + 1 ≥ 1 then [.lfb_clear_screen color.toUInt32] else []
  else if saved_req = SCREENUAPI_PUTPIXEL then
    let x := if s.data_index = 0 then req else s.x
    let y := if s.data_index = 1 then req else s.y
    let color := if s.data_index = 2 then req else s.color
    if s.data_index + 1 ≥ 3 then [.lfb_put_pixel x.toUInt32 y.toUInt32 color.toUInt32] else []
  else []

/-- The calls that `screen_uapi` makes. -/
def screen_calls (s : ScreenUapi) (verified : Bool) (req : UInt64) : List LfbCall :=
  if verified && s.cmd_bursting then process_calls s s.saved_req req else []

theorem process_req_draws (s : ScreenUapi) (saved_req req : UInt64) : ∃ status s', ∀ fb,
    process_req s fb saved_req req = do return (status, s', ← draw_all fb (process_calls s saved_req req)) := by
  unfold process_req process_calls
  by_cases h0 : saved_req = SCREENUAPI_CLEARSCREEN
  · by_cases hlast : s.data_index + 1 ≥ 1
    · refine ⟨UAPI_OK, { s with color := if s.data_index = 0 then req else s.color, data_index := 0 },
        fun fb => ?_⟩
      by_cases hi : s.data_index = 0
      · simp [h0, hi, draw_all, LfbCall.run]
      · simp [h0, hlast, hi, draw_all, LfbCall.run]
    · refine ⟨UAPI_CMDBURST_CONTINUE, { s with data_index := s.data_index + 1 }, fun fb => ?_⟩
      have hi : s.data_index ≠ 0 := fun hi => hlast (by rw [hi]; decide)
      simp [h0, hlast, hi, draw_all]
  by_cases h1 : saved_req = SCREENUAPI_PUTPIXEL
  · have hne : SCREENUAPI_PUTPIXEL ≠ SCREENUAPI_CLEARSCREEN := by decide
    generalize hs' : (if s.data_index = 0 then { s with x := req }
      else if s.data_index = 1 then { s with y := req }
      else if s.data_index = 2 then { s with color := req } else s) = s'
    have hx : s'.x = if s.data_index = 0 then req else s.x := by
      rw [← hs']
      split_ifs <;> rfl
    have hy : s'.y = if s.data_index = 1 then req else s.y := by
      rw [← hs']
      by_cases h : s.data_index = 0
      · simp [h]
      · split_ifs <;> rfl
    have hcolor : s'.color = if s.data_index = 2 then req else s.color := by
      rw [← hs']
      by_cases h : s.data_index = 0
      · simp [h]
      by_cases h' : s.data_index = 1
      · simp [h']
      · split_ifs <;> rfl
    have hindex : s'.data_index = s.data_index := by
      rw [← hs']
      split_ifs <;> rfl
    by_cases hlast : s.data_index + 1 ≥ 3
    · refine ⟨UAPI_OK, { s' with data_index := 0 }, fun fb => ?_⟩
      simp [h1, hne, hindex, hlast, hx, hy, hcolor, draw_all, LfbCall.run]
    · refine ⟨UAPI_CMDBURST_CONTINUE, { s' with data_index := s.data_index + 1 }, fun fb => ?_⟩
      simp [h1, hne, hindex, hlast, draw_all]
      rfl
  · exact ⟨UAPI_CMDBURST_CONTINUE, s, fun fb => by simp [h0, h1, draw_all]; rfl⟩

/-- **What the service does to a framebuffer**, whatever is on it, is to make these calls. -/
theorem screen_uapi_draws (s : ScreenUapi) (verified : Bool) (req : UInt64) : ∃ status s', ∀ fb,
    screen_uapi s fb verified req = do return (status, s', ← draw_all fb (screen_calls s verified req)) := by
  unfold screen_uapi screen_calls
  cases verified with
  | false => exact ⟨UAPI_PERMISSION_DENIED, s, fun fb => rfl⟩
  | true =>
    cases hb : s.cmd_bursting with
    | false =>
      by_cases h0 : req = SCREENUAPI_CLEARSCREEN
      · exact ⟨UAPI_OK, { s with saved_req := SCREENUAPI_CLEARSCREEN, cmd_bursting := true },
          fun fb => by rw [h0]; rfl⟩
      by_cases h1 : req = SCREENUAPI_PUTPIXEL
      · exact ⟨UAPI_OK, { s with saved_req := SCREENUAPI_PUTPIXEL, cmd_bursting := true },
          fun fb => by rw [h1]; rfl⟩
      · exact ⟨UAPI_OK, s, fun fb => by simp [h0, h1, draw_all]; rfl⟩
    | true =>
      obtain ⟨status, s', h⟩ := process_req_draws s s.saved_req req
      by_cases hc : status = UAPI_CMDBURST_CONTINUE
      · refine ⟨status, s', fun fb => ?_⟩
        simp [h, hc]
      · refine ⟨status, { s' with saved_req := 0, cmd_bursting := false }, fun fb => ?_⟩
        simp [h, hc]

/-! ### The owner's words -/

/-- The arguments a command takes. -/
def screen_arity (w : UInt64) : ℕ :=
  if w = SCREENUAPI_CLEARSCREEN then 1 else if w = SCREENUAPI_PUTPIXEL then 3 else 0

/-- What a command with its arguments says. -/
def LfbCall.ofCommand : UInt64 × List UInt64 → Option LfbCall
  | (w, [color]) => if w = SCREENUAPI_CLEARSCREEN then some (.lfb_clear_screen color.toUInt32) else none
  | (w, [x, y, color]) =>
    if w = SCREENUAPI_PUTPIXEL then some (.lfb_put_pixel x.toUInt32 y.toUInt32 color.toUInt32) else none
  | _ => none

/-- The static variables when these words are pending. -/
def Represents (s : ScreenUapi) : List UInt64 → Prop
  | [] => s.cmd_bursting = false ∧ s.data_index = 0
  | [w] => s.cmd_bursting = true ∧ s.saved_req = w ∧ s.data_index = 0 ∧
      (w = SCREENUAPI_CLEARSCREEN ∨ w = SCREENUAPI_PUTPIXEL)
  | [w, x] => s.cmd_bursting = true ∧ s.saved_req = w ∧ w = SCREENUAPI_PUTPIXEL ∧ s.data_index = 1 ∧ s.x = x
  | [w, x, y] => s.cmd_bursting = true ∧ s.saved_req = w ∧ w = SCREENUAPI_PUTPIXEL ∧ s.data_index = 2 ∧
      s.x = x ∧ s.y = y
  | _ => False

/-- What the service answers its owner when these words are pending. -/
def answered : List UInt64 → UAPI_STATUS_T
  | [] => UAPI_OK
  | c :: args => if args.length + 1 < screen_arity c then UAPI_CMDBURST_CONTINUE else UAPI_OK

/-- **One word of the owner**: the service makes the calls of the command that the word
completes, and the variables are those of what is pending then. -/
theorem Represents.feed {s : ScreenUapi} {p : List UInt64} (h : Represents s p) (req : UInt64) :
    ∃ s', Represents s' (Lib.Burst.feed screen_arity p req).2 ∧
      screen_calls s true req = (Lib.Burst.feed screen_arity p req).1.filterMap LfbCall.ofCommand ∧
      ∀ fb, screen_uapi s fb true req = do return (answered p, s', ← draw_all fb (screen_calls s true req)) := by
  match p, h with
  | [], ⟨hb, hi⟩ =>
    have hcalls : screen_calls s true req = [] := by simp [screen_calls, hb]
    rw [hcalls]
    by_cases h0 : req = SCREENUAPI_CLEARSCREEN
    · subst h0
      refine ⟨{ s with saved_req := SCREENUAPI_CLEARSCREEN, cmd_bursting := true },
        ⟨rfl, rfl, hi, .inl rfl⟩, rfl, fun fb => ?_⟩
      simp [screen_uapi, hb, draw_all]
      rfl
    by_cases h1 : req = SCREENUAPI_PUTPIXEL
    · subst h1
      refine ⟨{ s with saved_req := SCREENUAPI_PUTPIXEL, cmd_bursting := true },
        ⟨rfl, rfl, hi, .inr rfl⟩, rfl, fun fb => ?_⟩
      simp [screen_uapi, hb, draw_all, show SCREENUAPI_PUTPIXEL ≠ SCREENUAPI_CLEARSCREEN by decide]
      rfl
    · have hfeed : Lib.Burst.feed screen_arity [] req = ([], []) := by simp [Lib.Burst.feed, screen_arity, h0, h1]
      rw [hfeed]
      refine ⟨s, ⟨hb, hi⟩, rfl, fun fb => ?_⟩
      simp [screen_uapi, hb, h0, h1, draw_all]
      rfl
  | [w], ⟨hb, hs, hi, .inl hw⟩ =>
    subst hw
    have hcalls : screen_calls s true req = [.lfb_clear_screen req.toUInt32] := by
      simp [screen_calls, process_calls, hb, hs, hi]
    rw [hcalls]
    refine ⟨{ s with color := req, data_index := 0, saved_req := 0, cmd_bursting := false },
      ⟨rfl, rfl⟩, rfl, fun fb => ?_⟩
    simp [screen_uapi, process_req, hb, hs, hi, draw_all, LfbCall.run]
    rfl
  | [w], ⟨hb, hs, hi, .inr hw⟩ =>
    subst hw
    have hcalls : screen_calls s true req = [] := by
      simp [screen_calls, process_calls, hb, hs, hi, SCREENUAPI_PUTPIXEL, SCREENUAPI_CLEARSCREEN]
    rw [hcalls]
    refine ⟨{ s with x := req, data_index := 1 }, ⟨hb, hs, rfl, rfl, rfl⟩, rfl,
      fun fb => ?_⟩
    simp [screen_uapi, process_req, hb, hs, hi, draw_all, SCREENUAPI_PUTPIXEL, SCREENUAPI_CLEARSCREEN]
    rfl
  | [w, x], ⟨hb, hs, hw, hi, hx⟩ =>
    subst hw hx
    have hcalls : screen_calls s true req = [] := by
      simp [screen_calls, process_calls, hb, hs, hi, SCREENUAPI_PUTPIXEL, SCREENUAPI_CLEARSCREEN]
    rw [hcalls]
    refine ⟨{ s with y := req, data_index := 2 }, ⟨hb, hs, rfl, rfl, rfl, rfl⟩, rfl,
      fun fb => ?_⟩
    simp [screen_uapi, process_req, hb, hs, hi, draw_all, SCREENUAPI_PUTPIXEL, SCREENUAPI_CLEARSCREEN]
    rfl
  | [w, x, y], ⟨hb, hs, hw, hi, hx, hy⟩ =>
    subst hw hx hy
    have hcalls : screen_calls s true req =
        [.lfb_put_pixel s.x.toUInt32 s.y.toUInt32 req.toUInt32] := by
      simp [screen_calls, process_calls, hb, hs, hi, SCREENUAPI_PUTPIXEL, SCREENUAPI_CLEARSCREEN]
    rw [hcalls]
    refine ⟨{ s with color := req, data_index := 0, saved_req := 0, cmd_bursting := false },
      ⟨rfl, rfl⟩, rfl, fun fb => ?_⟩
    simp [screen_uapi, process_req, hb, hs, hi, draw_all, LfbCall.run, SCREENUAPI_PUTPIXEL,
      SCREENUAPI_CLEARSCREEN]
    rfl

/-! ### In a run -/

/-- The word of the owner in an entry, if it is a request of the owner to the screen service. -/
def owner_word (e : Entry) : Option UInt64 :=
  match e.2.1 with
  | .sysreq service_num req _ =>
    if service_num = 1 ∧ Masters e.1 e.1.current_task DRIVERTYPE_DISPLAY then some req else none
  | _ => none

/-- The calls that the screen service makes in an entry. -/
def service_calls (e : Entry) : List LfbCall :=
  match e.2.1 with
  | .sysreq service_num req _ =>
    if service_num = 1 then screen_calls e.1.screen (verify_drvmaster e.1 DRIVERTYPE_DISPLAY ≥ 0) req else []
  | _ => []

/-- The owner's words, in order. -/
def owner_words (es : List Entry) : List UInt64 := es.filterMap owner_word

/-- The calls made, in order. -/
def calls_made (es : List Entry) : List LfbCall := es.flatMap service_calls

/-- The calls made are what the owner's words say, and the variables hold what is pending. -/
def Served (es : List Entry) (k : Kernel) : Prop :=
  ∃ cs p, Lib.Burst.Parse screen_arity (owner_words es) cs p ∧ calls_made es = cs.filterMap LfbCall.ofCommand ∧
    Represents k.screen p

section Served

variable {k k' : Kernel} {a : Action} {o : UInt64} {es : List Entry}

theorem verified_iff : decide (verify_drvmaster k DRIVERTYPE_DISPLAY ≥ 0) = true ↔
    Masters k k.current_task DRIVERTYPE_DISPLAY := by
  show _ ↔ verify_drvmaster k DRIVERTYPE_DISPLAY = EXIT_SUCCESS
  rw [decide_eq_true_eq]
  unfold verify_drvmaster
  split <;> decide

/-- A request to the screen service. -/
theorem sysreq_screen (k : Kernel) (req : UInt64) : sysreq k 1 req = do
    let (status, screen, fb) ←
      screen_uapi k.screen k.console.fb (verify_drvmaster k DRIVERTYPE_DISPLAY ≥ 0) req
    return (status, none, { k with screen, console := { k.console with fb } }) := rfl

/-- **Everybody but the owner** is turned away. -/
theorem sysreq_denied {req : UInt64} (h : ¬Masters k k.current_task DRIVERTYPE_DISPLAY) :
    sysreq k 1 req = .ok (UAPI_PERMISSION_DENIED, none, k) := by
  have hv : decide (verify_drvmaster k DRIVERTYPE_DISPLAY ≥ 0) = false := by
    rw [Bool.eq_false_iff]
    exact fun hv => h (verified_iff.1 hv)
  rw [sysreq_screen, hv]
  rfl

theorem sysreq_screen_eq {service_num : UInt32} {req : UInt64} {r : UAPI_STATUS_T × Option UInt64 × Kernel}
    (h : sysreq k service_num req = .ok r) (hn : service_num ≠ 1) : r.2.2.screen = k.screen := by
  unfold sysreq at h
  rw [if_neg hn] at h
  split at h
  · obtain rfl := Except.ok.inj h
    unfold keyboard_uapi
    split <;> rfl
  split at h
  · obtain rfl := Except.ok.inj h
    unfold procinfo_uapi
    split <;> rfl
  · obtain rfl := Except.ok.inj h
    rfl

/-- The other actions leave the variables of the service alone. -/
theorem Devices.screen_eq (hD : Devices k a o k') (ha : ∀ req u, a ≠ .sysreq 1 req u) :
    k'.screen = k.screen := by
  cases hD with
  | claim =>
    rcases drv_claim_cases k _ with ⟨-, heq⟩ | ⟨-, -, -, -, heq⟩
    · rw [heq]
    · rw [heq]
      rfl
  | @request service_num req u status output _ h =>
    exact sysreq_screen_eq h fun hn => ha req u (by rw [hn])
  | print => rfl
  | other _ hd => exact hd.screen

/-- An entry that is no request to the screen service. -/
theorem Served.other (h : Served es k) (hD : Devices k a o k') (ha : ∀ req u, a ≠ .sysreq 1 req u) :
    Served (es ++ [(k, a, o)]) k' := by
  obtain ⟨cs, p, hp, hc, hr⟩ := h
  have hword : owner_word (k, a, o) = none := by
    unfold owner_word
    split
    next service_num req u he =>
      rw [if_neg]
      rintro ⟨rfl, -⟩
      exact ha req u he
    next => rfl
  have hcalls : service_calls (k, a, o) = [] := by
    unfold service_calls
    split
    next service_num req u he =>
      rw [if_neg]
      rintro rfl
      exact ha req u he
    next => rfl
  refine ⟨cs, p, ?_, ?_, ?_⟩
  · simpa [owner_words, hword] using hp
  · simpa [calls_made, hcalls] using hc
  · rwa [hD.screen_eq ha]

/-- **A request to the screen service.** -/
theorem Served.request (h : Served es k) {req u : UInt64} (hS : act k (.sysreq 1 req u) = .ok (o, k')) :
    Served (es ++ [(k, .sysreq 1 req u, o)]) k' := by
  obtain ⟨cs, p, hp, hc, hr⟩ := h
  obtain ⟨r, h₁, h₂⟩ := bind_ok.1 hS
  obtain ⟨-, rfl⟩ := Prod.mk.inj (pure_ok.1 h₂)
  by_cases hm : Masters k k.current_task DRIVERTYPE_DISPLAY
  · have hv := verified_iff.2 hm
    obtain ⟨s', hr', hcalls, hdraw⟩ := hr.feed req
    rw [sysreq_screen, hv, hdraw] at h₁
    obtain ⟨⟨status', screen, fb⟩, h₃, h₄⟩ := bind_ok.1 h₁
    obtain ⟨fb', -, h₅⟩ := bind_ok.1 h₃
    obtain ⟨rfl, rfl, rfl⟩ : answered p = status' ∧ s' = screen ∧ fb' = fb := by simpa using pure_ok.1 h₅
    obtain rfl := pure_ok.1 h₄
    refine ⟨cs ++ (Lib.Burst.feed screen_arity p req).1, _, ?_, ?_, hr'⟩
    · have hw : owner_words (es ++ [(k, .sysreq 1 req u, o)]) = owner_words es ++ [req] := by
        simp [owner_words, owner_word, hm]
      rw [hw]
      exact hp.snoc req
    · have hs : service_calls (k, .sysreq 1 req u, o) = screen_calls k.screen true req := by
        show (if (1 : UInt32) = 1 then screen_calls k.screen _ req else []) = _
        rw [if_pos rfl, hv]
      rw [List.filterMap_append, ← hc, ← hcalls, ← hs]
      simp [calls_made]
  · rw [sysreq_denied hm] at h₁
    obtain rfl := Except.ok.inj h₁
    have hv : decide (verify_drvmaster k DRIVERTYPE_DISPLAY ≥ 0) = false := by
      rw [Bool.eq_false_iff]
      exact fun hv => hm (verified_iff.1 hv)
    have hcalls : service_calls (k, .sysreq 1 req u, o) = [] := by
      show (if (1 : UInt32) = 1 then screen_calls k.screen _ req else []) = _
      rw [if_pos rfl, hv]
      rfl
    refine ⟨cs, p, ?_, ?_, hr⟩
    · simpa [owner_words, owner_word, hm] using hp
    · simpa [calls_made, hcalls] using hc

/-- A request changes the framebuffer by the calls that the service makes. -/
theorem sysreq_draws {req u : UInt64} (hS : act k (.sysreq 1 req u) = .ok (o, k')) :
    draw_all k.console.fb (service_calls (k, .sysreq 1 req u, o)) = .ok k'.console.fb := by
  obtain ⟨r, h₁, h₂⟩ := bind_ok.1 hS
  obtain ⟨-, rfl⟩ := Prod.mk.inj (pure_ok.1 h₂)
  obtain ⟨status, s', hdraw⟩ := screen_uapi_draws k.screen (verify_drvmaster k DRIVERTYPE_DISPLAY ≥ 0) req
  rw [sysreq_screen, hdraw] at h₁
  obtain ⟨⟨status', screen, fb⟩, h₃, h₄⟩ := bind_ok.1 h₁
  obtain ⟨fb', hfb, h₅⟩ := bind_ok.1 h₃
  obtain ⟨rfl, rfl, rfl⟩ : status = status' ∧ s' = screen ∧ fb' = fb := by simpa using pure_ok.1 h₅
  obtain rfl := pure_ok.1 h₄
  exact hfb

/-- **A step** of the run. -/
theorem Served.step (hw : k.WellFormed) (h : Served es k) (hS : Step k (a, o) k') :
    Served (es ++ [(k, a, o)]) k' := by
  by_cases ha : ∃ req u, a = .sysreq 1 req u
  · obtain ⟨req, u, rfl⟩ := ha
    exact h.request hS.2
  · exact h.other (act_devices hw hS.1 hS.2) fun req u he => ha ⟨req, u, he⟩

/-- The owner's words so far were all sent by a process that has claimed the display. -/
def OneOwner (es : List Entry) : Prop :=
  ∀ e ∈ es, owner_word e ≠ none → Claims es e.1.current_task DRIVERTYPE_DISPLAY

theorem OneOwner.step (hw : k.WellFormed) (ho : Owned es k) (h : OneOwner es) (hS : Step k (a, o) k') :
    OneOwner (es ++ [(k, a, o)]) := by
  intro e he hword
  refine claims_snoc.2 (.inl ?_)
  rcases List.mem_append.1 he with he | he
  · exact h e he hword
  · obtain rfl := List.mem_singleton.1 he
    unfold owner_word at hword
    dsimp only at hword
    split at hword
    next =>
      split at hword
      next hm => exact ho.claims _ _ (hw.running (hS.1.runs rfl)) hm.2
      next => exact absurd rfl hword
    next => exact absurd rfl hword

end Served

/-- **The screen service serves its owner**: the calls it has made are those that the words of the
owner say, all sent by one process, with what is unfinished pending; the framebuffer changes by
these calls; and who does not own the display is turned away. -/
structure ScreenServed (es : List Entry) (k : Kernel) : Prop where
  served : Served es k
  one_owner : ∀ e ∈ es, ∀ f ∈ es, owner_word e ≠ none → owner_word f ≠ none →
    e.1.current_task = f.1.current_task
  drawn : ∀ req u o k', Step k (.sysreq 1 req u, o) k' →
    draw_all k.console.fb (service_calls (k, .sysreq 1 req u, o)) = .ok k'.console.fb
  denied : ∀ req, ¬Masters k k.current_task DRIVERTYPE_DISPLAY →
    sysreq k 1 req = .ok (UAPI_PERMISSION_DENIED, none, k)

/-- What the steps of a run keep. -/
theorem Served.run {k₀ k : Kernel} {es : List Entry} (h₀ : Started k₀)
    (h : Lib.Run Logged (fun k e => Always k e.2) k₀ es k) : Owned es k ∧ Served es k ∧ OneOwner es := by
  obtain ⟨hw₀, hb⟩ := h₀.booted
  have hstart : Served [] k₀ := ⟨[], [], .nil, rfl, by rw [h₀.undriven.screen]; exact ⟨rfl, rfl⟩⟩
  exact (h.history (I := fun es k => k.WellFormed ∧ Owned es k ∧ Served es k ∧ OneOwner es)
    ⟨hw₀, h₀.undriven.owned hb, hstart, fun e he => by simp at he⟩
    fun {es t u e} ⟨hw, ho, hs, hone⟩ _ hS => by
      obtain ⟨rfl, hS⟩ := hS
      exact ⟨hS.wellFormed hw, ho.step hw hS, hs.step hw hS, hone.step hw ho hS⟩).2

/-- **In every run** the screen service serves its owner. -/
theorem screen_served {k₀ k : Kernel} {es : List Entry} (h₀ : Started k₀)
    (h : Lib.Run Logged (fun k e => Always k e.2) k₀ es k) : ScreenServed es k := by
  obtain ⟨ho, hs, hone⟩ := Served.run h₀ h
  refine ⟨hs, fun e he f hf hwe hwf => ?_, fun req u o k' hS => ?_, fun req => sysreq_denied⟩
  · exact ho.once _ _ _ (hone e he hwe) (hone f hf hwf)
  · exact sysreq_draws hS.2

/-- The first process claims the display and puts a pixel, while a process that does not own the
display sends a word in between. -/
theorem screen_served_pixel : ∃ k₀ es k, Started k₀ ∧ Lib.Run Logged (fun k e => Always k e.2) k₀ es k ∧
    k.console.fb.pixels (k.console.fb.get_pixel_index 2 3) = 7 ∧ ScreenServed es k := by
  obtain ⟨es, k, ⟨k₀, h₀, h⟩, hn⟩ := traces_true Always
    (fun k => k.console.fb.pixels (k.console.fb.get_pixel_index 2 3) == 7)
    [.drv_claim 1, .initrd_spawn [65] 0 1, .sysreq 1 1 0, .sysreq 1 2 0, .timer quietTick, .sysreq 1 0 0,
      .timer quietTick, .sysreq 1 3 0, .sysreq 1 7 0] (by decide +kernel)
  obtain ⟨fs, hr, -⟩ := logged h
  exact ⟨k₀, fs, k, h₀, hr, beq_iff_eq.1 hn, screen_served h₀ hr⟩

end Iridium
