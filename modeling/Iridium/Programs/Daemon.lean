import Iridium.Proc.Parents
import Iridium.Programs.Gfxd

/-!
# The display daemon and process 1

What the daemon draws is what process 1 has asked for. The signals come to the daemon in the order
in which they are accepted; what it has fetched and what is in its queue is asked for and not yet
drawn (`Holding`). Its words to the screen service are those of the owner of the display, so that
the service is in the place of the burst that the daemon is in (`Serving.represents`).
-/

namespace Iridium

/-! ### The sender -/

/-- A process with PID 1 that has signal handlers is in the queue. -/
def InitParent (k : Kernel) : Prop :=
  ∀ h, k.Live h → (k.procs h).isHandler = true → (k.procs (k.procs h).parent).pid = 1 → k.Live (k.procs h).parent

section Steps

variable {k k' : Kernel} {a : Action} {o : UInt64} {d : ℕ} {g g' : Gfxd} {es : List Entry}

theorem InitParent.effect (hw : k.WellFormed) (h : InitParent k)
    (hp : ∀ h, k.Live h → (k.procs h).isHandler = true → (k.procs h).parent ≤ k.frontier)
    (hE : Effect k a o k') : InitParent k' := by
  have hstay : ∀ p, k.Live p → (k'.procs p).pid = 1 → k'.Live p := by
    intro p hl hpid
    refine live_of_not_killed hw hE hl fun _ hr hc => ?_
    rw [(hw.sameRole hE (hw.le hl)).pid, hc] at hpid
    unfold Kernel.current at hr
    simp [refused, hpid] at hr
  intro p hl' hh hpid
  by_cases hl : k.Live p
  · have hrole := hw.sameRole hE (hw.le hl)
    rw [hrole.isHandler] at hh
    rw [hrole.parent] at hpid ⊢
    refine hstay _ (h p hl hh ?_) hpid
    rwa [(hw.sameRole hE (hp p hl hh)).pid] at hpid
  · rcases created hw hE hl hl' with hf | hc
    · rw [hf.not_handler] at hh
      cases hh
    · exact hstay _ hc.owner hpid

/-- **Who sends as PID 1** is the first process, or a signal handler of it. -/
theorem sender_pid_eq_one (hw : k.WellFormed) (hi : ∀ p, k.Live p → (k.procs p).pid = 1 → p = k.queue_base)
    (hp : InitParent k) (hs : k.spinning = false) : sender_pid k = 1 ↔ signal_owner k = k.queue_base := by
  have hpid : sender_pid k = (k.procs (signal_owner k)).pid := by
    unfold sender_pid signal_owner
    split <;> rfl
  rw [hpid]
  constructor
  · intro h1
    refine hi _ ?_ h1
    unfold signal_owner at *
    split at h1
    next hh =>
      rw [if_pos hh]
      exact hp _ (hw.running hs) hh h1
    next hh =>
      rw [if_neg hh]
      exact hw.running hs
  · intro h
    rw [h]
    exact hw.init

/-! ### The queue of the daemon -/

/-- Nothing gets into the queue of a process that is not there. -/
theorem posted_of_not_live (h : ¬k.Live d) : posted d (k, a, o) = none := by
  unfold posted
  dsimp only
  split
  next => rfl
  next => rw [if_neg fun hf => h (List.mem_of_find?_eq_some hf)]

theorem asks_of_not_live (h : ¬k.Live d) : asks d (k, a, o) = [] := by
  unfold asks
  rw [posted_of_not_live h]

theorem posted_of_misses (h : Misses d k a) : posted d (k, a, o) = none := by
  unfold posted
  dsimp only
  split
  next => rfl
  next hs =>
    split
    next hf =>
      rcases h hs with ⟨e, k₂, hcall, he⟩ | ⟨p, hne, hp⟩
      · rw [hcall]
        exact if_neg he
      · rw [(Option.filter_eq_some_iff.1 hp).1] at hf
        exact absurd (Option.some.inj hf) hne
    next => rfl

/-- **A signal queued** asks for what its word comes to. -/
theorem asks_posted {k₁ k₂ : Kernel} {dest : PID_T} {dword : UInt32} (hw : k.WellFormed)
    (hi : ∀ p, k.Live p → (k.procs p).pid = 1 → p = k.queue_base) (hp : InitParent k) (he : Enabled k a)
    (hs : a.sends k = some (k₁, dest, dword)) (hr : recipient k dest = some d)
    (hcall : psignal_send k₁ dest dword = .ok (EXIT_SUCCESS, k₂)) :
    asks d (k, a, o) = waiting (word (sender_pid k, dword)) := by
  have hpost : posted d (k, a, o) = some dword := by
    unfold posted
    dsimp only
    rw [hs]
    dsimp only
    rw [if_pos (Option.filter_eq_some_iff.1 hr).1, hcall]
    rfl
  unfold asks word
  rw [hpost, waiting_word]
  dsimp only
  by_cases hc : dword &&& 0xFF = 0
  · -- not the keyboard, whose payload is another
    have hrun : k.spinning = false := by
      cases a with
      | psignal_send => exact he.runs rfl
      | keyboard port beyond =>
        simp only [Action.sends] at hs
        split at hs
        · obtain ⟨-, -, rfl⟩ : _ ∧ _ ∧ _ := by simpa using hs
          exact absurd hc (by decide)
        · cases hs
      | _ => cases hs
    simp only [sender_pid_eq_one hw hi hp hrun]
  · rw [if_neg fun h => hc h.2, if_neg fun h => hc h.2]

/-- The queue of the daemon: what is in it, and what has been asked for and not yet drawn. -/
def Holding (d : ℕ) (es : List Entry) (k : Kernel) (g : Gfxd) : Prop :=
  (k.procs d).sigq.signal_callback = 0 ∧ ∃ ws, Holds (k.procs d).sigq ws ∧
    es.flatMap (asks d) = es.flatMap (draws d) ++ (g.pending ++ ws.flatMap waiting)

/-- **Something happens that is not of the daemon.** -/
theorem Holding.other {q : SignalQueue} (h : Holding d es k g) (hw : k.WellFormed)
    (hi : ∀ p, k.Live p → (k.procs p).pid = 1 → p = k.queue_base) (hp : InitParent k) (he : Enabled k a)
    (ha : a = .psignal_read → k.current_task ≠ d) (hd : draws d (k, a, o) = [])
    (hm : Mail k d a o q) (hq : (k'.procs d).sigq = q) : Holding d (es ++ [(k, a, o)]) k' g := by
  obtain ⟨hcb, ws, hH, heq⟩ := h
  unfold Holding
  rw [hq, List.flatMap_append, List.flatMap_append, List.flatMap_singleton, List.flatMap_singleton, hd, heq,
    List.append_nil]
  cases hm with
  | same hmiss =>
    refine ⟨hcb, ws, hH, ?_⟩
    unfold asks
    rw [posted_of_misses hmiss, List.append_nil]
  | post hs hr hcall =>
    rw [asks_posted hw hi hp he hs hr hcall]
    -- the queue was empty, since it was not locked
    cases hH with
    | empty h0 =>
      refine ⟨hcb, [_], .push h0 _, ?_⟩
      simp
    | one _ hl => exact absurd hl (recipient_accepts hr).unlocked
  | empty hc => exact absurd hc (ha rfl)
  | pop hc => exact absurd hc (ha rfl)

/-- What a call of the daemon draws. -/
theorem draws_call {u : UInt64} (hc : k.current_task = d)
    (hm : g ≠ .claimdrv → Masters k d DRIVERTYPE_DISPLAY ∧ Represents k.screen g.burst) :
    draws d (k, g.call u, o) = match g with | .sysreq_color _ => g.pending | _ => [] := by
  have hservice : ∀ req, g ≠ .claimdrv → service_calls (k, .sysreq UAPI_SCREEN_SERVICE req u, o) =
      (Lib.Burst.feed screen_arity g.burst req).1.filterMap LfbCall.ofCommand := by
    intro req hg
    obtain ⟨_, -, hcalls, -⟩ := (hm hg).2.feed req
    have hv : decide (verify_drvmaster k DRIVERTYPE_DISPLAY ≥ 0) = true := verified_iff.2 (hc ▸ (hm hg).1)
    rw [← hcalls]
    show (if (1 : UInt32) = 1 then screen_calls k.screen _ req else []) = _
    rw [if_pos rfl, hv]
  unfold draws
  rw [if_pos hc]
  cases g with
  | claimdrv => rfl
  | psignal_fetch => rfl
  | sysreq_clear => exact hservice _ nofun
  | sysreq_color => exact hservice _ nofun

/-- **A call of the daemon.** -/
theorem Holding.call {u : UInt64} {q : SignalQueue} (h : Holding d es k g) (hc : k.current_task = d)
    (hm : g ≠ .claimdrv → Masters k d DRIVERTYPE_DISPLAY ∧ Represents k.screen g.burst)
    (hmail : Mail k d (g.call u) o q) (hq : (k'.procs d).sigq = q) :
    Holding d (es ++ [(k, g.call u, o)]) k' (g.next o) := by
  obtain ⟨hcb, ws, hH, heq⟩ := h
  have hask : asks d (k, g.call u, o) = [] := by
    cases g <;> rfl
  unfold Holding
  rw [hq, List.flatMap_append, List.flatMap_append, List.flatMap_singleton, List.flatMap_singleton, hask,
    draws_call hc hm, heq, List.append_nil]
  cases g with
  | claimdrv =>
    cases hmail with
    | same => exact ⟨hcb, ws, hH, by simp [Gfxd.next, Gfxd.pending]⟩
    | post hs => cases hs
  | psignal_fetch =>
    generalize ha : Gfxd.psignal_fetch.call u = a at hmail
    cases hmail with
    | same _ hne => exact absurd hc (hne ha.symm)
    | post hs =>
      rw [← ha] at hs
      cases hs
    | empty _ h0 =>
      cases hH with
      | empty => exact ⟨hcb, [], .empty h0, by simp [Gfxd.next, Gfxd.pending]⟩
      | one h1 =>
        rw [h0] at h1
        cases h1
    | pop _ h0 =>
      cases hH with
      | empty he => exact absurd he h0
      | one h1 =>
        have hi : (k.procs d).sigq.next_index - 1 = 0 := by
          rw [h1]
          rfl
        refine ⟨hcb, [], .empty hi, ?_⟩
        rw [hi]
        simp [Gfxd.pending, waiting]
  | sysreq_clear ipcmd =>
    cases hmail with
    | same => exact ⟨hcb, ws, hH, by simp [Gfxd.next, Gfxd.pending]⟩
    | post hs => cases hs
  | sysreq_color ipcmd =>
    cases hmail with
    | same => exact ⟨hcb, ws, hH, by simp [Gfxd.next, Gfxd.pending]⟩
    | post hs => cases hs

/-! ### One step -/

/-- **What a run has done for the daemon**, before its process is there and while it is. -/
structure Serving (d : ℕ) (es : List Entry) (k : Kernel) (g : Gfxd) : Prop where
  parents : ∀ h, k.Live h → (k.procs h).isHandler = true → (k.procs h).parent ≤ k.frontier
  init : InitParent k
  unhandled : Unhandled d k
  /-- Nothing, before. -/
  silent : (k.Live d → (k.procs d).isHandler = true) →
    es.flatMap (asks d) = [] ∧ es.flatMap (draws d) = [] ∧ g = .claimdrv
  holding : k.Live d → (k.procs d).isHandler = false → Holding d es k g
  words : ∀ e ∈ es, daemon_word d e ≠ none → owner_word e = daemon_word d e
  parse : ∃ cs, Lib.Burst.Parse screen_arity (es.filterMap (daemon_word d)) cs g.burst

/-- The words of the owner are those of the daemon, when it is the owner. -/
theorem Serving.owner_words (h : Serving d es k g) (ho : Owned es k) (h1 : OneOwner es) (hl : k.Live d)
    (hm : Masters k d DRIVERTYPE_DISPLAY) : owner_words es = es.filterMap (daemon_word d) := by
  refine List.filterMap_congr fun e he => ?_
  by_cases hw : owner_word e = none
  · by_contra hne
    rw [hw] at hne
    exact hne (hw.symm.trans (h.words e he (Ne.symm hne)))
  · have hcur : e.1.current_task = d := ho.once _ _ _ (h1 e he hw) (ho.claims _ _ hl hm)
    obtain ⟨t, a, o⟩ := e
    cases a with
    | sysreq service_num req u =>
      have hown : service_num = 1 ∧ Masters t t.current_task DRIVERTYPE_DISPLAY := by
        by_contra hn
        exact hw (if_neg hn)
      have h₁ : owner_word (t, .sysreq service_num req u, o) = some req := if_pos hown
      have h₂ : daemon_word d (t, .sysreq service_num req u, o) = some req := if_pos ⟨hown.1, hcur⟩
      exact h₁.trans h₂.symm
    | _ => exact absurd rfl hw

/-- The service has of the burst what the daemon has sent. -/
theorem Serving.represents (h : Serving d es k g) (ho : Owned es k) (h1 : OneOwner es) (hs : Served es k)
    (hl : k.Live d) (hm : Masters k d DRIVERTYPE_DISPLAY) : Represents k.screen g.burst := by
  obtain ⟨cs, p, hp, -, hr⟩ := hs
  obtain ⟨cs', hp'⟩ := h.parse
  rw [h.owner_words ho h1 hl hm] at hp
  rwa [(hp'.unique hp).2]

/-- Whether a call of the daemon says a word to the screen service, and what that has of the burst
then. -/
theorem daemon_word_call {u : UInt64} (hc : k.current_task = d) :
    (daemon_word d (k, g.call u, o) = none ∧ (g.next o).burst = g.burst) ∨
      ∃ req, daemon_word d (k, g.call u, o) = some req ∧ g ≠ .claimdrv ∧
        (g.next o).burst = (Lib.Burst.feed screen_arity g.burst req).2 ∧
        g.call u = .sysreq UAPI_SCREEN_SERVICE req u := by
  cases g with
  | claimdrv => exact .inl ⟨rfl, rfl⟩
  | psignal_fetch =>
    refine .inl ⟨rfl, ?_⟩
    unfold Gfxd.next
    dsimp only
    split_ifs <;> rfl
  | sysreq_clear => exact .inr ⟨_, if_pos ⟨rfl, hc⟩, nofun, rfl, rfl⟩
  | sysreq_color => exact .inr ⟨_, if_pos ⟨rfl, hc⟩, nofun, rfl, rfl⟩

/-- **A call of the daemon.** -/
theorem Serving.call {u : UInt64} (hw : k.WellFormed) (ho : Owned es k) (h1 : OneOwner es) (hs : Served es k)
    (h : Serving d es k g) (hC : Relies d (k, g)) (hc : k.current_task = d)
    (hS : Step k (g.call u, o) k') : Serving d (es ++ [(k, g.call u, o)]) k' (g.next o) := by
  have hE := hS.effect hw
  have hplain : (g.call u).isInterrupt = false ∧ (g.call u).exits = false ∧ installs (g.call u) = false := by
    cases g <;> exact ⟨rfl, rfl, rfl⟩
  obtain ⟨hint, hexit, hinst⟩ := hplain
  have hl : k.Live d := hc ▸ hw.running (hS.1.runs hint)
  have hh := hC.not_handler hl
  have hhold := h.holding hl hh
  have hl' : k'.Live d := live_of_not_killed hw hE hl fun ha => by
    rw [hexit] at ha
    cases ha
  have hh' : (k'.procs d).isHandler = false := ((hw.sameRole hE (hw.le hl)).isHandler).trans hh
  have hpar := h.unhandled.effect hw h.parents (fun _ => hhold.1) hE
  have hmail := mail hw hl hh hhold.1 (fun _ => hinst) h.unhandled hE
  have hmaster : g ≠ .claimdrv → Masters k d DRIVERTYPE_DISPLAY ∧ Represents k.screen g.burst := fun hg =>
    ⟨hC.owns hc hg, h.represents ho h1 hs hl (hC.owns hc hg)⟩
  refine
    { parents := fun p hp hh => Nat.le_trans (hpar p hp hh).1 (frontier_le hE)
      init := h.init.effect hw h.parents hE
      unhandled := fun p hp hh => (hpar p hp hh).2
      silent := fun hx => ?_
      holding := fun _ _ => hhold.call hc hmaster hmail rfl
      words := fun e he hne => ?_
      parse := ?_ }
  · rw [hx hl'] at hh'
    cases hh'
  · rcases List.mem_append.1 he with he | he
    · exact h.words e he hne
    · obtain rfl := List.mem_singleton.1 he
      rcases daemon_word_call (g := g) (u := u) (o := o) hc with ⟨hnone, -⟩ | ⟨req, hsome, hg, -, hcall⟩
      · exact absurd hnone hne
      · rw [hsome, hcall]
        exact if_pos ⟨rfl, hc ▸ (hmaster hg).1⟩
  · obtain ⟨cs, hp⟩ := h.parse
    rw [List.filterMap_append]
    rcases daemon_word_call (g := g) (u := u) (o := o) hc with ⟨hnone, hb⟩ | ⟨req, hsome, -, hb, -⟩
    · exact ⟨cs, by simpa [hnone, hb] using hp⟩
    · exact ⟨_, by simpa [hsome, hb] using hp.snoc req⟩

/-- **Something happens that is not of the daemon.** -/
theorem Serving.other (hw : k.WellFormed) (h : Serving d es k g) (hC : Relies d (k, g))
    (hc : ¬(k.current_task = d ∧ a.isInterrupt = false)) (hS : Step k (a, o) k') :
    Serving d (es ++ [(k, a, o)]) k' g := by
  have hE := hS.effect hw
  have hword : daemon_word d (k, a, o) = none := by
    unfold daemon_word
    dsimp only
    split
    next => exact if_neg fun hd => hc ⟨hd.2, rfl⟩
    next => rfl
  have hdraw : draws d (k, a, o) = [] := by
    unfold draws
    split
    next hd =>
      cases a with
      | timer => rfl
      | keyboard => rfl
      | _ => exact absurd ⟨hd, rfl⟩ hc
    next => rfl
  have hpar := h.unhandled.effect hw h.parents (fun hl => (h.holding hl (hC.not_handler hl)).1) hE
  refine
    { parents := fun p hp hh => Nat.le_trans (hpar p hp hh).1 (frontier_le hE)
      init := h.init.effect hw h.parents hE
      unhandled := fun p hp hh => (hpar p hp hh).2
      silent := fun hx => ?_
      holding := fun hl' hh' => ?_
      words := fun e he hne => ?_
      parse := by
        obtain ⟨cs, hp⟩ := h.parse
        exact ⟨cs, by simpa [hword] using hp⟩ }
  · by_cases hl : k.Live d
    · -- the daemon is neither killed nor made a signal handler
      have hl' : k'.Live d := live_of_not_killed hw hE hl fun ha _ he =>
        hc ⟨he.symm, by cases a <;> first | rfl | cases ha⟩
      have hh := hx hl'
      rw [(hw.sameRole hE (hw.le hl)).isHandler, hC.not_handler hl] at hh
      cases hh
    · obtain ⟨h₁, h₂, h₃⟩ := h.silent fun hl' => absurd hl' hl
      have hask := asks_of_not_live (a := a) (o := o) hl
      exact ⟨by simp [h₁, hask], by simp [h₂, hdraw], h₃⟩
  · by_cases hl : k.Live d
    · have hh := hC.not_handler hl
      have hhold := h.holding hl hh
      have hmail := mail hw hl hh hhold.1
        (fun he => by cases a <;> first | rfl | exact absurd ⟨he, rfl⟩ hc) h.unhandled hE
      exact hhold.other hw hC.init h.init hS.1 (fun ha he => hc ⟨he, by rw [ha]; rfl⟩) hdraw hmail rfl
    · obtain ⟨h₁, h₂, h₃⟩ := h.silent fun hl' => absurd hl' hl
      have hask := asks_of_not_live (a := a) (o := o) hl
      rcases created hw hE hl hl' with hf | hf
      · unfold Holding
        rw [hf.sigq, h₃]
        exact ⟨rfl, [], .empty rfl, by simp [h₁, h₂, hask, hdraw, Gfxd.pending]⟩
      · rw [hf.handler] at hh'
        cases hh'
  · rcases List.mem_append.1 he with he | he
    · exact h.words e he hne
    · obtain rfl := List.mem_singleton.1 he
      exact absurd hword hne

end Steps

/-! ### Runs that are computed -/

/-- The actions taken from `s`, as long as they can be taken; `none` stands for the next call of the
daemon. -/
def drives (d : ℕ) (s : Kernel × Gfxd) : List (Option Action) → Kern (Kernel × Gfxd)
  | [] => .ok s
  | b :: as => do
    let a := b.getD (s.2.call 0)
    let (o, k) ← act s.1 a
    let own := decide (s.1.current_task = d ∧ a.isInterrupt = false)
    if Enabled s.1 a ∧ Relies d s ∧ b.isNone = own then
      drives d (k, if own then s.2.next o else s.2) as
    else .error .stopped

theorem drives_ok {d : ℕ} {s s' : Kernel × Gfxd} {as : List (Option Action)} (h : drives d s as = .ok s') :
    ∃ es, Lib.Run (Serves d) (fun s _ => Relies d s) s es s' := by
  induction as generalizing s with
  | nil =>
    obtain rfl := Except.ok.inj h
    exact ⟨[], .nil⟩
  | cons b as ih =>
    obtain ⟨⟨o, k⟩, ha, h⟩ := bind_ok.1 h
    dsimp only at h
    generalize hb : b.getD (s.2.call 0) = a at ha h
    split at h
    next hc =>
      obtain ⟨he, hr, hown⟩ := hc
      obtain ⟨es, hrun⟩ := ih h
      refine ⟨_, (Lib.Run.single (e := (s.1, a, o)) hr ⟨⟨rfl, he, ha⟩, ?_⟩).trans hrun⟩
      by_cases ho : s.1.current_task = d ∧ a.isInterrupt = false
      · rw [decide_eq_true ho, Option.isNone_iff_eq_none] at hown
        subst hown
        rw [if_pos ho, decide_eq_true ho]
        exact ⟨⟨0, hb.symm⟩, rfl⟩
      · rw [if_neg ho, decide_eq_false ho]
        rfl
    next => cases h

/-- The actions taken from the beginning of the machine, and a test of the state reached. -/
def daemon_traces (d : ℕ) (as : List (Option Action)) (b : Kernel × Gfxd → Bool) : Bool :=
  match start machine 0x1234 >>= fun k => drives d (k, .claimdrv) as with
  | .ok s => b s
  | .error _ => false

theorem daemon_traces_true (d : ℕ) (as : List (Option Action)) (b : Kernel × Gfxd → Bool)
    (h : daemon_traces d as b = true) : ∃ k₀ es s, Started k₀ ∧
      Lib.Run (Serves d) (fun s _ => Relies d s) (k₀, .claimdrv) es s ∧ b s = true := by
  unfold daemon_traces at h
  split at h
  next s hs =>
    obtain ⟨k₀, h₀, hr⟩ := bind_ok.1 hs
    obtain ⟨es, hr⟩ := drives_ok hr
    exact ⟨k₀, es, s, ⟨machine, _, machine_powerOn, h₀⟩, hr, h⟩
  next => cases h

/-! ### Results -/

/-- **What the daemon draws** is what process 1 has asked for, in the order in which the signals
were accepted: all of it but for the one in its queue and the one in its hands, and all of it when it
fetches from an empty queue. A request of `libgfx_clearscreen` asks for its colour modulo `2 ^ 24`,
and the calls are what happens to the framebuffer. -/
structure Drawn (d : ℕ) (es : List Entry) (k : Kernel) (g : Gfxd) : Prop where
  order : ∃ rest, es.flatMap (asks d) = es.flatMap (draws d) ++ rest ∧ rest.length ≤ 2
  all : g = .psignal_fetch → (k.procs d).sigq.next_index = 0 → es.flatMap (asks d) = es.flatMap (draws d)
  color : ∀ e color, e.2.1 = libgfx_clearscreen color → signal_owner e.1 = e.1.queue_base →
    posted d e ≠ none → asks d e = [.lfb_clear_screen (color % 0x1000000)]
  drawn : ∀ req u o k', k.current_task = d → Step k (.sysreq UAPI_SCREEN_SERVICE req u, o) k' →
    draw_all k.console.fb (draws d (k, .sysreq UAPI_SCREEN_SERVICE req u, o)) = .ok k'.console.fb

theorem waiting_length (w : UInt64) : (waiting w).length ≤ 1 := by
  unfold waiting
  generalize Gfxd.psignal_fetch.next (taken w) = g
  cases g <;> simp [Gfxd.pending]

theorem Serving.drawn {d : ℕ} {es : List Entry} {k : Kernel} {g : Gfxd} (h : Serving d es k g) :
    Drawn d es k g where
  order := by
    by_cases hl : k.Live d → (k.procs d).isHandler = true
    · obtain ⟨h₁, h₂, -⟩ := h.silent hl
      exact ⟨[], by simp [h₁, h₂], by simp⟩
    · obtain ⟨hl, hh⟩ := Classical.not_imp.1 hl
      obtain ⟨-, ws, hH, heq⟩ := h.holding hl (by simpa using hh)
      refine ⟨_, heq, ?_⟩
      have hg : g.pending.length ≤ 1 := by cases g <;> simp [Gfxd.pending]
      rw [List.length_append]
      cases hH with
      | empty => simpa using Nat.le_succ_of_le hg
      | one =>
        have := waiting_length ((k.procs d).sigq.queue 0)
        rw [List.flatMap_singleton]
        omega
  all hg h0 := by
    by_cases hl : k.Live d → (k.procs d).isHandler = true
    · rw [(h.silent hl).2.2] at hg
      cases hg
    · obtain ⟨hl, hh⟩ := Classical.not_imp.1 hl
      obtain ⟨-, ws, hH, heq⟩ := h.holding hl (by simpa using hh)
      cases hH with
      | empty =>
        rw [hg] at heq
        simpa [Gfxd.pending] using heq
      | one h1 =>
        rw [h0] at h1
        cases h1
  color e color ha ho hp := by
    obtain ⟨dword, hd⟩ := Option.ne_none_iff_exists'.1 hp
    obtain ⟨hlow, hcolor⟩ := libgfx_payload color
    have hdword : dword = color <<< 8 := by
      unfold posted at hd
      rw [ha] at hd
      simp only [libgfx_clearscreen, Action.sends] at hd
      split at hd
      · split at hd
        · split at hd
          · exact (Option.some.inj hd).symm
          · cases hd
        · cases hd
      · cases hd
    unfold asks
    rw [hd]
    dsimp only
    rw [hdword, if_pos ⟨ho, hlow⟩, hcolor]
  drawn req u o k' hc hS := by
    unfold draws
    rw [if_pos hc]
    exact sysreq_draws hS.2

/-- **In every run** the daemon draws what process 1 asks for. -/
theorem daemon_draws {d : ℕ} {k₀ k : Kernel} {g : Gfxd} {es : List Entry} (h₀ : Started k₀)
    (h : Lib.Run (Serves d) (fun s _ => Relies d s) (k₀, .claimdrv) es (k, g)) : Drawn d es k g := by
  obtain ⟨hw₀, hb⟩ := h₀.booted
  have hstart : Served [] k₀ := ⟨[], [], .nil, rfl, by rw [h₀.undriven.screen]; exact ⟨rfl, rfl⟩⟩
  have hserving : Serving d [] k₀ .claimdrv :=
    { parents := fun _ hp hh => absurd hh (hb.no_handler hp)
      init := fun _ hp hh => absurd hh (hb.no_handler hp)
      unhandled := fun _ hp hh => absurd hh (hb.no_handler hp)
      silent := fun _ => ⟨rfl, rfl, rfl⟩
      holding := fun hl _ => by
        rw [hb.live_eq hl]
        exact ⟨hb.signal_callback, [], .empty hb.next_index, rfl⟩
      words := fun e he => by simp at he
      parse := ⟨[], .nil⟩ }
  obtain ⟨-, -, -, -, hs⟩ := h.history
    (I := fun es s => s.1.WellFormed ∧ Owned es s.1 ∧ Served es s.1 ∧ OneOwner es ∧ Serving d es s.1 s.2)
    ⟨hw₀, h₀.undriven.owned hb, hstart, fun e he => by simp at he, hserving⟩
    fun {es s s' e} ⟨hw, ho, hs, h1, hI⟩ hC hS => by
      obtain ⟨k, g⟩ := s
      obtain ⟨k', g'⟩ := s'
      obtain ⟨_, a, o⟩ := e
      obtain ⟨⟨rfl, hS⟩, hg⟩ := hS
      refine ⟨hS.wellFormed hw, ho.step hw hS, hs.step hw hS, h1.step hw ho hS, ?_⟩
      dsimp only at hg
      split at hg
      next hown =>
        obtain ⟨⟨u, rfl⟩, rfl⟩ := hg
        exact hI.call hw ho h1 hs hC hown.1 hS
      next hown =>
        subst hg
        exact hI.other hw hC hown hS
  exact hs.drawn

/-- The daemon is spawned and claims the display, and the first process has the screen cleared. -/
theorem daemon_draws_clear : ∃ d k₀ k g es, Started k₀ ∧
    Lib.Run (Serves d) (fun s _ => Relies d s) (k₀, .claimdrv) es (k, g) ∧ g = .psignal_fetch ∧
      k.screen.color = 0x123456 ∧ Drawn d es k g := by
  obtain ⟨k₀, es, ⟨k, g⟩, h₀, hr, hb⟩ := daemon_traces_true second_descriptor
    [some (.initrd_spawn [65] PPERM_DRVCLAIM 1), some (.timer quietTick), none, none, some (.timer quietTick),
      some (libgfx_clearscreen 0xFF123456), some (.timer quietTick), none, none, none]
    (fun s => decide (s.2 = .psignal_fetch ∧ s.1.screen.color = 0x123456)) (by decide +kernel)
  obtain ⟨hg, hcolor⟩ := of_decide_eq_true hb
  exact ⟨_, k₀, k, g, es, h₀, hr, hg, hcolor, daemon_draws h₀ hr⟩

end Iridium
