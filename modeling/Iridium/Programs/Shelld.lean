import Iridium.Programs.Relay
import Iridium.Programs.Shell

/-!
# The shell as a process

`programs/sys/shell` again, for the system calls that it makes. `main` installs the callback and writes the prompt;
each signal has a process of its own, which fetches the signal, asks the keyboard service for the keystroke, writes
what there is to write, and exits. What it writes depends on the line, which it shares with the other callbacks: any
text may be written here. The callbacks take no mutex, so any number of them run side by side.

`Answering` counts the signals that came in: each is with a callback that is to fetch it, with one that has fetched it
and is to ask, or was asked for.
-/

namespace Iridium

/-! ### The program -/

/-- Where `main` of the shell is: before the call of this name, or in its endless loop. -/
inductive ShellMain where
  | psignal_hook
  | con_out
  | spin
  deriving DecidableEq

/-- Where a callback of the shell is: before the call of this name, or with the packet, when it writes and exits. -/
inductive ShellCallback where
  | psignal_fetch
  | sysreq
  | answer (keystroke_packet : UInt32)
  deriving DecidableEq

/-- **Where the processes of the shell are** in their code. -/
structure Shelld where
  main : ShellMain
  callback : ℕ → ShellCallback

/-- The shell before it has run. -/
def Shelld.start : Shelld := ⟨.psignal_hook, fun _ => .psignal_fetch⟩

/-- The next call of `main`, whose callback is at `psignal_callback`. -/
def ShellMain.call (psignal_callback : UInt64) : ShellMain → Option Action
  | psignal_hook => some (.psignal_hook psignal_callback)
  | con_out => some (.con_out LIVE_ENVIRON_PROMPT PROMPT_COLOR)
  | spin => none

/-- `main` after its call. -/
def ShellMain.next : ShellMain → ShellMain
  | psignal_hook => con_out
  | con_out | spin => spin

/-- The action is a call that the callback may make next. `reboot`, which it may make too, is none of the actions:
nothing happens any more. -/
def ShellCallback.calls : ShellCallback → Action → Bool
  | psignal_fetch, .psignal_read => true
  | sysreq, a => a.fetches_key
  | answer _, .con_out _ color => color == PROMPT_COLOR
  | answer _, .exit => true
  | _, _ => false

/-- The callback with the answer. -/
def ShellCallback.next (o : UInt64) : ShellCallback → ShellCallback
  | psignal_fetch => sysreq
  | sysreq => answer o.toUInt32
  | answer keystroke_packet => answer keystroke_packet

/-- The place of one process changed. -/
def Shelld.goto (h : Shelld) (p : ℕ) (c : ShellCallback) : Shelld :=
  { h with callback := Function.update h.callback p c }

/-- **The shell**, which the process at `s` and its handlers run, beside what the kernel does. -/
def ShellRuns (s : ℕ) (psignal_callback : UInt64) (h : Shelld) : Option Entry → Shelld → Prop
  | none, h' => h' = h
  | some e, h' =>
    if e.2.1.isInterrupt = true ∨ signal_owner e.1 ≠ s then h' = h
    else if e.1.current_task = s then h.main.call psignal_callback = some e.2.1 ∧ h' = { h with main := h.main.next }
    else (h.callback e.1.current_task).calls e.2.1 = true ∧
      h' = h.goto e.1.current_task ((h.callback e.1.current_task).next e.2.2)

/-- What the keyboard service answers a process of the shell. -/
def shell_told (s : ℕ) (e : Entry) : Option UInt64 :=
  if e.2.1.fetches_key = true ∧ signal_owner e.1 = s then some e.2.2 else none

/-! ### The callbacks of the shell -/

/-- Those of the processes that are before the call. -/
def Shelld.before (h : Shelld) (H : Set ℕ) (c : ShellCallback) : Set ℕ := {p ∈ H | h.callback p = c}

/-- **The signals that came in**, for a queue and a set of handlers: those that wait are to be fetched by as many
handlers, and those that were fetched were asked for, or are to be. -/
structure Answering (came told : ℕ) (q : SignalQueue) (H : Set ℕ) (h : Shelld) : Prop where
  tidy : q.Tidy
  waiting : q.next_index.toNat = (h.before H .psignal_fetch).ncard
  count : came = told + (h.before H .psignal_fetch).ncard + (h.before H .sysreq).ncard

section Answering

variable {H : Set ℕ} {h : Shelld} {p : ℕ} {c d : ShellCallback} {came told : ℕ} {q : SignalQueue}

@[simp] theorem Shelld.goto_self : (h.goto p c).callback p = c := Function.update_self ..

theorem Shelld.goto_of_ne {r : ℕ} (hr : r ≠ p) : (h.goto p c).callback r = h.callback r := Function.update_of_ne hr ..

/-- Who stays where it is. -/
theorem Shelld.goto_same (hc : h.callback p = c) : h.goto p c = h := by
  subst hc
  unfold goto
  rw [Function.update_eq_self]

/-- **Who leaves a place** is there no longer. -/
theorem Shelld.before_leave (hd : c ≠ d) : (h.goto p c).before H d = h.before H d \ {p} := by
  ext r
  by_cases hr : r = p
  · subst hr
    exact iff_of_false (fun hm => hd (goto_self.symm.trans hm.2)) fun hm => hm.2 rfl
  · unfold before
    rw [Set.mem_sdiff, Set.mem_singleton_iff, Set.mem_sep_iff, Set.mem_sep_iff, goto_of_ne hr]
    exact (and_iff_left hr).symm

/-- **Who comes to a place** is there too. -/
theorem Shelld.before_enter (hp : p ∈ H) : (h.goto p c).before H c = insert p (h.before H c) := by
  ext r
  by_cases hr : r = p
  · subst hr
    exact iff_of_true ⟨hp, goto_self⟩ (Set.mem_insert ..)
  · unfold before
    rw [Set.mem_insert_iff, Set.mem_sep_iff, Set.mem_sep_iff, goto_of_ne hr]
    exact (or_iff_right hr).symm

/-- Who was elsewhere is not missed. -/
theorem Shelld.before_elsewhere (hp : h.callback p ≠ d) : h.before H d \ {p} = h.before H d :=
  Set.sdiff_singleton_eq_self fun hm => hp hm.2

theorem Shelld.finite_before (hf : H.Finite) : (h.before H c).Finite := hf.subset fun _ hp => hp.1

theorem Shelld.ncard_leave (hf : H.Finite) (hp : p ∈ H) (hc : h.callback p = c) :
    (h.before H c \ {p}).ncard + 1 = (h.before H c).ncard :=
  Set.ncard_sdiff_singleton_add_one ⟨hp, hc⟩ (finite_before hf)

theorem Shelld.ncard_enter (hf : H.Finite) (hp : h.callback p ≠ c) :
    (insert p (h.before H c)).ncard = (h.before H c).ncard + 1 :=
  Set.ncard_insert_of_notMem (fun hm => hp hm.2) (finite_before hf)

@[simp] theorem Shelld.ncard_before_empty : (h.before ∅ c).ncard = 0 := by
  rw [show h.before ∅ c = ∅ from Set.eq_empty_of_forall_notMem fun _ hp => hp.1, Set.ncard_empty]

/-- Handlers with the packet are not counted. -/
theorem Shelld.before_sdiff (hc : h.callback p ≠ c) : h.before (H \ {p}) c = h.before H c := by
  ext r
  refine ⟨fun hr => ⟨hr.1.1, hr.2⟩, fun hr => ⟨⟨hr.1, fun he => hc ?_⟩, hr.2⟩⟩
  rw [← Set.mem_singleton_iff.1 he]
  exact hr.2

/-- **A signal is accepted**, and has a handler. -/
theorem Answering.post (hs : Answering came told q H h) (hf : H.Finite) (hl : q.rwlock ≠ 1) (hp : p ∉ H)
    (hc : h.callback p = .psignal_fetch) (w : UInt64) : Answering (came + 1) told (q.push w) (insert p H) h := by
  have hidx : q.next_index = 0 := hs.tidy.index_iff.2 hl
  have hn : h.callback p ≠ .sysreq := hc.trans_ne nofun
  have hnew : h.before (insert p H) .psignal_fetch = insert p (h.before H .psignal_fetch) :=
    Set.ext fun r => ⟨fun hr => hr.1.imp_right fun hH => ⟨hH, hr.2⟩, fun hr => by
      rcases hr with rfl | hr
      · exact ⟨Set.mem_insert .., hc⟩
      · exact ⟨Set.mem_insert_of_mem _ hr.1, hr.2⟩⟩
  have hold : h.before (insert p H) .sysreq = h.before H .sysreq :=
    Set.ext fun r => ⟨fun hr => ⟨hr.1.resolve_left fun he => hn (he ▸ hr.2), hr.2⟩,
      fun hr => ⟨Set.mem_insert_of_mem _ hr.1, hr.2⟩⟩
  have hcard : (insert p (h.before H .psignal_fetch)).ncard = (h.before H .psignal_fetch).ncard + 1 :=
    Set.ncard_insert_of_notMem (fun hm => hp hm.1) (Shelld.finite_before hf)
  have hwait := hs.waiting
  have hcount := hs.count
  rw [hidx] at hwait
  refine ⟨hs.tidy.push hl w, ?_, ?_⟩
  · have hone : (q.push w).next_index = 1 := by
      show q.next_index + 1 = 1
      rw [hidx]
      rfl
    rw [hone, hnew, hcard, ← hwait]
    rfl
  · rw [hnew, hold, hcard]
    omega

/-- **A signal is fetched.** -/
theorem Answering.fetch (hs : Answering came told q H h) (hf : H.Finite) (hp : p ∈ H)
    (hc : h.callback p = .psignal_fetch) : Answering came told q.unlock.pop H (h.goto p .sysreq) := by
  have hleave := Shelld.ncard_leave hf hp hc
  have henter : (insert p (h.before H .sysreq)).ncard = _ :=
    Shelld.ncard_enter (c := .sysreq) hf (hc.trans_ne nofun)
  have hwait := hs.waiting
  have hcount := hs.count
  -- the handler that is to fetch it has a signal to fetch
  have hidx : q.next_index = 1 := by
    cases hs.tidy with
    | opened h0 =>
      rw [h0] at hwait
      have h0 : (0 : UInt8).toNat = 0 := rfl
      omega
    | locked h1 => exact h1
  refine ⟨hs.tidy.pop (by rw [hidx]; decide), ?_, ?_⟩
  · have hzero : q.unlock.pop.next_index = 0 := by
      show q.next_index - 1 = 0
      rw [hidx]
      rfl
    rw [hzero, Shelld.before_leave (by decide)]
    rw [hidx] at hwait
    have h0 : (0 : UInt8).toNat = 0 := rfl
    have h1 : (1 : UInt8).toNat = 1 := rfl
    omega
  · rw [Shelld.before_leave (by decide), Shelld.before_enter hp, henter]
    omega

/-- **The keystroke is asked for.** -/
theorem Answering.ask (hs : Answering came told q H h) (hf : H.Finite) (hp : p ∈ H) (hc : h.callback p = .sysreq)
    (x : UInt32) : Answering came (told + 1) q H (h.goto p (.answer x)) := by
  have hleave := Shelld.ncard_leave hf hp hc
  have hn : ∀ {c}, c = .psignal_fetch ∨ c = .sysreq → ShellCallback.answer x ≠ c := by
    rintro _ (rfl | rfl) h <;> cases h
  have hp' : h.callback p ≠ .psignal_fetch := hc.trans_ne nofun
  have hfetch : (h.goto p (.answer x)).before H .psignal_fetch = h.before H .psignal_fetch := by
    rw [Shelld.before_leave (hn (.inl rfl)), Shelld.before_elsewhere hp']
  have hcount := hs.count
  refine ⟨hs.tidy, hs.waiting.trans (by rw [hfetch]), ?_⟩
  rw [hfetch, Shelld.before_leave (hn (.inr rfl))]
  omega

/-- **A handler exits**, when it has asked. -/
theorem Answering.exit {x : UInt32} (hs : Answering came told q H h) (hc : h.callback p = .answer x) :
    Answering came told q (H \ {p}) h := by
  have hfetch : h.before (H \ {p}) .psignal_fetch = _ := Shelld.before_sdiff (hc.trans_ne nofun)
  have hask : h.before (H \ {p}) .sysreq = _ := Shelld.before_sdiff (hc.trans_ne nofun)
  exact ⟨hs.tidy, hs.waiting.trans (by rw [hfetch]), hs.count.trans (by rw [hfetch, hask])⟩

/-- The callback is installed. -/
theorem Answering.hook (hs : Answering came told q H h) (callback : UInt64) :
    Answering came told { q with signal_callback := callback } H h :=
  ⟨hs.tidy.congr rfl rfl, hs.waiting, hs.count⟩

/-- `main` goes on. -/
theorem Answering.main (hs : Answering came told q H h) (m : ShellMain) : Answering came told q H { h with main := m } :=
  ⟨hs.tidy, hs.waiting, hs.count⟩

end Answering

/-! ### The shell on the kernel -/

/-- **What a run has done for the shell**, before the process at `s` is there and afterwards. -/
structure ShellServes (s : ℕ) (es : List Entry) (k : Kernel) (h : Shelld) : Prop where
  unborn : ¬k.Live s → k.handlers s = ∅
  fresh : ∀ p, k.frontier < p → h.callback p = .psignal_fetch
  own : ∀ p ∈ k.handlers s, (k.procs p).sigq.next_index = 1
  answering : k.Live s → (k.procs s).isHandler = false → Answering (es.filterMap (accepted s)).length
    (es.filterMap (shell_told s)).length (k.procs s).sigq (k.handlers s) h
  count : (es.filterMap (accepted s)).length = (es.filterMap (shell_told s)).length +
    (h.before (k.handlers s) .psignal_fetch).ncard + (h.before (k.handlers s) .sysreq).ncard

/-- **What the shell relies on**: it is the first process with its PID, and no signal is accepted before the callback
is installed. -/
structure ShellRelies (s : ℕ) (k : Kernel) (e : Entry) : Prop where
  first : k.Live s → k.queue.find? (fun p => (k.procs p).pid == (k.procs s).pid) = some s
  not_handler : k.Live s → (k.procs s).isHandler = false
  hooked : accepted s e ≠ none → (k.procs s).sigq.signal_callback ≠ 0

section Shelld

variable {k k' : Kernel} {a : Action} {o cb : UInt64} {s : ℕ} {es : List Entry} {h h' : Shelld} {q : SignalQueue}
  {H : Set ℕ} {came told : ℕ}

/-- Who asks for a keystroke is a process. -/
theorem Action.not_interrupt_of_fetches (h : a.fetches_key = true) : a.isInterrupt = false := by
  cases a <;> first | rfl | cases h

theorem shell_told_eq_none (hn : a.fetches_key = false ∨ a.isInterrupt = true ∨ signal_owner k ≠ s) :
    shell_told s (k, a, o) = none := by
  refine if_neg fun ⟨hf, ho⟩ => ?_
  rcases hn with hn | hn | hn
  · exact Bool.false_ne_true (hn.symm.trans hf)
  · exact Bool.false_ne_true ((Action.not_interrupt_of_fetches hf).symm.trans hn)
  · exact hn ho

/-- Something happens that is not of the shell. -/
theorem ShellRuns.other_iff (hn : a.isInterrupt = true ∨ signal_owner k ≠ s) :
    ShellRuns s cb h (some (k, a, o)) h' ↔ h' = h := by
  unfold ShellRuns
  dsimp only
  rw [if_pos hn]

/-- A call of `main`. -/
theorem ShellRuns.main_iff (hi : a.isInterrupt = false) (ho : signal_owner k = s) (hc : k.current_task = s) :
    ShellRuns s cb h (some (k, a, o)) h' ↔ h.main.call cb = some a ∧ h' = { h with main := h.main.next } := by
  unfold ShellRuns
  dsimp only
  rw [if_neg (by simp [hi, ho]), if_pos hc]

/-- A call of a callback. -/
theorem ShellRuns.call_iff (hi : a.isInterrupt = false) (ho : signal_owner k = s) (hc : k.current_task ≠ s) :
    ShellRuns s cb h (some (k, a, o)) h' ↔ (h.callback k.current_task).calls a = true ∧
      h' = h.goto k.current_task ((h.callback k.current_task).next o) := by
  unfold ShellRuns
  dsimp only
  rw [if_neg (by simp [hi, ho]), if_neg hc]

/-- A call of `main` neither reads nor sends, and does not exit. -/
theorem ShellMain.call_plain {m : ShellMain} (hc : m.call cb = some a) : a.exits = false ∧ a.fetches_key = false ∧
    a ≠ .psignal_read ∧ (a = .psignal_hook cb ∨ a.sends k = none ∧ a.plain = true) := by
  cases m with
  | psignal_hook =>
    obtain rfl := Option.some.inj hc
    exact ⟨rfl, rfl, nofun, .inl rfl⟩
  | con_out =>
    obtain rfl := Option.some.inj hc
    exact ⟨rfl, rfl, nofun, .inr ⟨rfl, rfl⟩⟩
  | spin => cases hc

/-- Who runs as the shell makes a call of `main`. -/
theorem ShellRuns.main (hr : ShellRuns s cb h (some (k, a, o)) h') (hi : a.isInterrupt = false)
    (hc : k.current_task = s) (hh : (k.procs s).isHandler = false) : h.main.call cb = some a := by
  have howner : signal_owner k = s := by
    unfold signal_owner Kernel.current
    rw [hc, if_neg (by rw [hh]; decide)]
  exact ((main_iff hi howner hc).1 hr).1

/-- **The shell stays**: it does not exit, and nobody else ends it. -/
theorem ShellRuns.live (hr : ShellRuns s cb h (some (k, a, o)) h') (hw : k.WellFormed) (hE : Effect k a o k')
    (hl : k.Live s) (hh : (k.procs s).isHandler = false) : k'.Live s := by
  refine live_of_not_killed hw hE hl fun hx _ hc => ?_
  have hi : a.isInterrupt = false := by cases a <;> first | rfl | cases hx
  have hcall := hr.main hi hc.symm hh
  rw [(ShellMain.call_plain (k := k) hcall).1] at hx
  cases hx

/-- **A call of a callback.** -/
theorem Answering.call (hs : Answering came told (k.procs s).sigq (k.handlers s) h) (hm : HookMail k s a o q H)
    (hp : k.current_task ∈ k.handlers s) (hown : k.current.sigq.next_index = 1)
    (ha : (h.callback k.current_task).calls a = true) :
    Answering (came + (accepted s (k, a, o)).toList.length) (told + (shell_told s (k, a, o)).toList.length) q H
      (h.goto k.current_task ((h.callback k.current_task).next o)) := by
  have hf := k.finite_handlers s
  have howner := owner_of_handler hp
  cases hc : h.callback k.current_task with
  | psignal_fetch =>
    rw [hc] at ha
    cases a with
    | psignal_read =>
      have hacc : accepted s (k, .psignal_read, o) = none := accepted_eq_none rfl
      rw [hacc, shell_told_eq_none (.inl rfl)]
      cases hm with
      | same hsp => exact absurd howner (hsp.read rfl)
      | empty _ h0 => exact absurd (h0.symm.trans hown) (by decide)
      | pop => exact hs.fetch hf hp hc
      | queued h | handled h =>
        rw [hacc] at h
        cases h
      | exited hx => cases hx
    | _ => cases ha
  | sysreq =>
    rw [hc] at ha
    cases a with
    | sysreq service_num request uninit =>
      have htold : shell_told s (k, .sysreq service_num request uninit, o) = some o := if_pos ⟨ha, howner⟩
      obtain ⟨hacc, rfl, rfl⟩ := hm.plain rfl rfl rfl
      rw [hacc, htold]
      exact hs.ask hf hp hc o.toUInt32
    | _ => cases ha
  | answer x =>
    rw [hc] at ha
    rw [show h.goto k.current_task ((ShellCallback.answer x).next o) = h from Shelld.goto_same hc]
    cases a with
    | con_out string color =>
      obtain ⟨hacc, rfl, rfl⟩ := hm.plain rfl rfl rfl
      rw [hacc, shell_told_eq_none (.inl rfl)]
      exact hs
    | exit =>
      have hacc : accepted s (k, .exit, o) = none := accepted_eq_none rfl
      rw [hacc, shell_told_eq_none (.inl rfl)]
      cases hm with
      | same => exact hs
      | exited => exact hs.exit hc
      | queued h | handled h =>
        rw [hacc] at h
        cases h
    | _ => cases ha

/-- **A step, when the shell is there.** -/
theorem Answering.step (hs : Answering came told (k.procs s).sigq (k.handlers s) h) (hw : k.WellFormed)
    (hm : HookMail k s a o q H) (he : Enabled k a) (hC : ShellRelies s k (k, a, o)) (hl : k.Live s)
    (hown : ∀ p ∈ k.handlers s, (k.procs p).sigq.next_index = 1)
    (hfresh : ∀ p, k.frontier < p → h.callback p = .psignal_fetch) (hr : ShellRuns s cb h (some (k, a, o)) h') :
    Answering (came + (accepted s (k, a, o)).toList.length) (told + (shell_told s (k, a, o)).toList.length) q H h' := by
  have hh := hC.not_handler hl
  by_cases hn : a.isInterrupt = true ∨ signal_owner k ≠ s
  · obtain rfl := (ShellRuns.other_iff hn).1 hr
    rw [shell_told_eq_none (.inr hn)]
    rcases hm.other hn hh hC.hooked with ⟨ha, rfl, rfl⟩ | ⟨w, p, ha, rfl, rfl, hopen, hnew⟩
    · rw [ha]
      exact hs
    · rw [ha]
      exact hs.post (k.finite_handlers s) hopen (fun hp => Nat.not_lt.2 (hw.le hp.1) hnew) (hfresh p hnew) (word w)
  · rw [not_or, Bool.not_eq_true, not_not] at hn
    by_cases hc : k.current_task = s
    · obtain ⟨ha, rfl⟩ := (ShellRuns.main_iff hn.1 hn.2 hc).1 hr
      obtain ⟨hx, hkey, hread, hcall⟩ := ShellMain.call_plain (k := k) ha
      rw [shell_told_eq_none (.inl hkey)]
      rcases hcall with rfl | ⟨hsend, hplain⟩
      · have hacc : accepted s (k, .psignal_hook cb, o) = none := accepted_eq_none rfl
        rw [hacc]
        cases hm with
        | same hsp => exact absurd hc (hsp.hook _ rfl)
        | hook => exact (hs.hook cb).main _
        | queued h | handled h =>
          rw [hacc] at h
          cases h
        | exited hx => cases hx
      · obtain ⟨hacc, rfl, rfl⟩ := hm.plain hsend hplain hx
        rw [hacc]
        exact hs.main _
    · obtain ⟨ha, rfl⟩ := (ShellRuns.call_iff hn.1 hn.2 hc).1 hr
      have hp := handler_of_owner (hw.running (he.runs hn.1)) hn.2 hc
      exact hs.call hm hp (hown _ hp) ha

/-- **One more step.** -/
theorem ShellServes.step (hI : ShellServes s es k h) (hw : k.WellFormed) (hlock : HandlersLocked k)
    (hC : ShellRelies s k (k, a, o)) (hS : Step k (a, o) k') (hr : ShellRuns s cb h (some (k, a, o)) h') :
    ShellServes s (es ++ [(k, a, o)]) k' h' := by
  have hE := hS.effect hw
  have hgoes : ∀ p, k.frontier < p → h'.callback p = h.callback p := by
    intro p hp
    unfold ShellRuns at hr
    dsimp only at hr
    split at hr
    · rw [hr]
    split at hr
    · rw [hr.2]
    · rw [hr.2]
      exact Shelld.goto_of_ne fun he => Nat.not_lt.2 hw.current_le (he ▸ hp)
  have hfresh : ∀ p, k'.frontier < p → h'.callback p = .psignal_fetch := fun p hp => by
    have hlt := Nat.lt_of_le_of_lt (frontier_le hE) hp
    exact (hgoes p hlt).trans (hI.fresh p hlt)
  by_cases hl : k.Live s
  · have hh := hC.not_handler hl
    have hanswer := hI.answering hl hh
    have hm := hookMail hw (hw.le hl) hh hC.first hS
    have hstep := hanswer.step hw hm hS.1 hC hl hI.own hI.fresh hr
    have hlengths : ∀ {β : Type} (f : Entry → Option β),
        ((es ++ [(k, a, o)]).filterMap f).length = (es.filterMap f).length + (f (k, a, o)).toList.length := fun f => by
      rw [Lib.filterMap_snoc, List.length_append]
    rw [← hlengths, ← hlengths] at hstep
    exact ⟨fun hn => absurd (hr.live hw hE hl hh) hn, hfresh, fun p hp => hm.own hw hlock hE hanswer.tidy.index_iff.2
      hI.own hp, fun _ _ => hstep, hstep.count⟩
  · have hnone := hI.unborn hl
    have hused : ¬Used k s := fun hu => hu.elim hl fun ⟨p, hp⟩ => (hnone ▸ hp : p ∈ (∅ : Set ℕ))
    have hempty : k'.handlers s = ∅ := Set.eq_empty_of_forall_notMem fun p hp => hused (used_of_handlers hw hE hp)
    have hacc : accepted s (k, a, o) = none := accepted_of_not_live hl
    have htold : shell_told s (k, a, o) = none := if_neg fun ht => by
      obtain ⟨hf, ho⟩ := ht
      exact hused (ho ▸ used_of_owner hw (hS.1.runs (Action.not_interrupt_of_fetches hf)))
    have hcount := hI.count
    rw [hnone, Shelld.ncard_before_empty, Shelld.ncard_before_empty] at hcount
    have hcount' : ((es ++ [(k, a, o)]).filterMap (accepted s)).length =
        ((es ++ [(k, a, o)]).filterMap (shell_told s)).length + (h'.before (k'.handlers s) .psignal_fetch).ncard +
          (h'.before (k'.handlers s) .sysreq).ncard := by
      rw [Lib.filterMap_snoc, Lib.filterMap_snoc, hacc, htold, hempty]
      simpa using hcount
    refine ⟨fun _ => hempty, hfresh, fun p hp => (hempty ▸ hp : p ∈ (∅ : Set ℕ)).elim, fun hl' hh' => ?_, hcount'⟩
    -- the process is new
    rcases created hw hE hl hl' with hf | hf
    · refine ⟨?_, ?_, hcount'⟩
      · rw [hf.sigq]
        exact .opened rfl rfl
      · rw [hf.sigq, hempty, Shelld.ncard_before_empty]
        rfl
    · rw [hf.handler] at hh'
      cases hh'

theorem Booted.serves (hb : Booted k) (hs : s ≠ k.queue_base) : ShellServes s [] k .start := by
  have hl : ¬k.Live s := fun hl => hs ((hb.live_eq hl).trans hb.current_task)
  have hempty : k.handlers s = ∅ := Set.eq_empty_of_forall_notMem fun p hp => hb.no_handler hp.1 hp.2.1
  refine ⟨fun _ => hempty, fun _ _ => rfl, fun p hp => (hempty ▸ hp : p ∈ (∅ : Set ℕ)).elim,
    fun hl' => absurd hl' hl, ?_⟩
  rw [hempty, Shelld.ncard_before_empty, Shelld.ncard_before_empty]
  rfl

end Shelld

end Iridium
