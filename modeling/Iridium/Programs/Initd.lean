import Iridium.Proc.Handlers
import Iridium.Programs.Service
import Iridium.Sync.Mutex

/-!
# The first program

`programs/sys/init`. `main` says hello, installs its callback and spawns the shell, and makes no more calls. Each
signal has a process of its own for the callback: it takes the mutex, fetches the signal, passes a keystroke on
to the shell, and gives the mutex back. All these processes have the address space of the first one, and with
it the static variables.

The kernel is run together with what the program has in its memory (`Relays`), so that a process of it does what
comes next in the program. What happens between the system calls is a step of its own. A process that is
interrupted is taken to go on with its own registers, which `switch_task` does not see to.
-/

namespace Iridium

/-! ### The program -/

/-- `PSIGNAL_KEYSTROKE`. -/
def PSIGNAL_KEYSTROKE : UInt64 := 0x9961A7A

/-- `RGB2HEX(138, 43, 226)` and `DEFAULT_COLOR`. -/
def BANNER_COLOR : UInt32 := 0x8A2BE2
def DEFAULT_COLOR : UInt32 := 0xFFFF00

def BANNER : List UInt8 := "<==== IridiumD (init.sys) v0.0.1 ====>\n\n".toUTF8.toList
def STARTING : List UInt8 := "Starting shell.. (shell.sys)\n\n".toUTF8.toList
def SHELL_PATH : List UInt8 := "initrd/shell.sys".toUTF8.toList

/-- Where `main` is: before the call of this name, or in its endless loop. -/
inductive InitMain where
  | con_out_banner
  | con_out_starting
  | psignal_hook
  | service_create
  | spin
  deriving DecidableEq

/-- Where `psignal_callback` is: before the call of this name, or before it reads `shell_pid` for a signal. -/
inductive InitCallback where
  | mutex_acquire
  | psignal_fetch
  | shell_pid (psignal : UInt64)
  | psignal_send (dest : PID_T) (payload : UInt32)
  | mutex_release
  | exit
  deriving DecidableEq

/-- **The memory of the program**: its static variables and, for each process, where it is in the callback. -/
structure Initd where
  main : InitMain
  psignal_lock : MUTEX_T
  shell_pid : PID_T
  callback : ℕ → InitCallback

/-- The program before it has run. A process that does not yet exist will begin with the callback. -/
def Initd.start : Initd := ⟨.con_out_banner, MUTEX_UNLOCKED, 0, fun _ => .mutex_acquire⟩

/-- The next call of `main`, whose callback is at `psignal_callback`. -/
def InitMain.call (psignal_callback : UInt64) : InitMain → Option Action
  | con_out_banner => some (.con_out BANNER BANNER_COLOR)
  | con_out_starting => some (.con_out STARTING DEFAULT_COLOR)
  | psignal_hook => some (.psignal_hook psignal_callback)
  | service_create => some (.initrd_spawn SHELL_PATH PPERM_CONSOLE 1)
  | spin => none

/-- `main` with the answer. -/
def Initd.answered (i : Initd) (answer : UInt64) : Initd :=
  match i.main with
  | .con_out_banner => { i with main := .con_out_starting }
  | .con_out_starting => { i with main := .psignal_hook }
  | .psignal_hook => { i with main := .service_create }
  | .service_create => { i with main := .spin, shell_pid := answer.toUInt16.toInt16 }
  | .spin => i

/-- The next call of the callback, if that is what comes next. -/
def InitCallback.call : InitCallback → Option Action
  | psignal_fetch => some .psignal_read
  | psignal_send dest payload => some (.psignal_send dest payload)
  | exit => some .exit
  | _ => none

/-- The callback with the answer. -/
def InitCallback.next (answer : UInt64) : InitCallback → InitCallback
  | psignal_fetch => if PSIGNAL_EXTRACT_SIGPAYLOAD answer = PSIGNAL_KEYSTROKE then shell_pid answer else mutex_release
  | psignal_send _ _ => mutex_release
  | c => c

@[simp] theorem InitCallback.next_psignal_send {answer : UInt64} {dest : PID_T} {payload : UInt32} :
    (psignal_send dest payload).next answer = mutex_release := rfl

@[simp] theorem InitCallback.next_exit {answer : UInt64} : exit.next answer = exit := rfl

/-- The place of one process changed. -/
def Initd.goto (i : Initd) (p : ℕ) (c : InitCallback) : Initd := { i with callback := Function.update i.callback p c }

/-- What the callback in the process at `p` does up to its next call, a step of it. -/
def Initd.alone (i : Initd) (p : ℕ) : Option Initd :=
  match i.callback p with
  | .mutex_acquire =>
    let turn := mutex_acquire i.psignal_lock
    some ({ i with psignal_lock := turn.2 }.goto p (if turn.1 then .psignal_fetch else .mutex_acquire))
  | .shell_pid psignal => some (i.goto p (.psignal_send i.shell_pid (PSIGNAL_EXTRACT_SIGPAYLOAD psignal).toUInt32))
  | .mutex_release => some ({ i with psignal_lock := mutex_release i.psignal_lock }.goto p .exit)
  | _ => none

/-- **The kernel and the program**, which the process at `b` and its handlers run: one of them takes a step of
its own, or the kernel does something, for one of them or not. -/
def Relays (b : ℕ) (psignal_callback : UInt64) (s : Kernel × Initd) : Option Entry → Kernel × Initd → Prop
  | none, s' => s'.1 = s.1 ∧ s.1.spinning = false ∧ s.1.current_task ∈ s.1.handlers b ∧
      s.2.alone s.1.current_task = some s'.2
  | some e, s' => Logged s.1 e s'.1 ∧
      if e.2.1.isInterrupt = true ∨ signal_owner s.1 ≠ b then s'.2 = s.2
      else if s.1.current_task = b then s.2.main.call psignal_callback = some e.2.1 ∧ s'.2 = s.2.answered e.2.2
      else (s.2.callback s.1.current_task).call = some e.2.1 ∧
        s'.2 = s.2.goto s.1.current_task ((s.2.callback s.1.current_task).next e.2.2)

/-- **What the program relies on**: no signal is accepted before the callback is installed, a handler may exit,
and the record of the shell has a slot in the array of services. -/
structure InitRelies (b : ℕ) (s : Kernel × Initd) (e : Entry) : Prop where
  hooked : accepted b e ≠ none → (s.1.procs b).sigq.signal_callback ≠ 0
  exits : e.2.1.exits = true → s.1.current.isHandler = true → s.1.current.parent = b →
    refused s.1 s.1.current.pid = false
  slot : s.1.current_task = b → s.2.main = .service_create → e.2.1.isInterrupt = false →
    0 ≤ e.2.2.toUInt16.toInt16.toInt ∧ e.2.2.toUInt16.toInt16.toInt < MAX_SERVICES

instance (b : ℕ) (s : Kernel × Initd) (e : Entry) : Decidable (InitRelies b s e) :=
  decidable_of_iff
    ((accepted b e ≠ none → (s.1.procs b).sigq.signal_callback ≠ 0) ∧
      (e.2.1.exits = true → s.1.current.isHandler = true → s.1.current.parent = b →
        refused s.1 s.1.current.pid = false) ∧
      (s.1.current_task = b → s.2.main = .service_create → e.2.1.isInterrupt = false →
        0 ≤ e.2.2.toUInt16.toInt16.toInt ∧ e.2.2.toUInt16.toInt16.toInt < MAX_SERVICES))
    ⟨fun h => ⟨h.1, h.2.1, h.2.2⟩, fun h => ⟨h.hooked, h.exits, h.slot⟩⟩

/-! ### What comes in and what goes out -/

/-- The answer that a process of the program fetches. -/
def init_fetch (b : ℕ) (e : Entry) : Option UInt64 :=
  match e.2.1 with
  | .psignal_read => if signal_owner e.1 = b then some e.2.2 else none
  | _ => none

/-- The PID and the payload of the signal that a process of the program sends. -/
def init_send (b : ℕ) (e : Entry) : Option (PID_T × UInt32) :=
  match e.2.1 with
  | .psignal_send dest dword => if signal_owner e.1 = b then some (dest, dword) else none
  | _ => none

/-- The word tells of a keystroke. -/
def isKeystroke (psignal : UInt64) : Bool := PSIGNAL_EXTRACT_SIGPAYLOAD psignal == PSIGNAL_KEYSTROKE

/-- The callback has the mutex. -/
def InitCallback.inside : InitCallback → Bool
  | mutex_acquire | exit => false
  | _ => true

/-- It has not yet fetched its signal. -/
def InitCallback.unread : InitCallback → Bool
  | mutex_acquire | psignal_fetch => true
  | _ => false

/-- It has a keystroke in its hands. -/
def InitCallback.hand : InitCallback → Bool
  | shell_pid _ | psignal_send _ _ => true
  | _ => false

/-- What it has read is a keystroke, and goes to the shell or, before there is one, to PID 0. -/
def InitCallback.Ok (shell : PID_T) : InitCallback → Prop
  | shell_pid psignal => isKeystroke psignal = true
  | psignal_send dest payload => (dest = 0 ∨ dest = shell) ∧ payload.toUInt64 = PSIGNAL_KEYSTROKE
  | _ => True

/-- **What the program passes on.** The signals accepted are fetched in order, each once, all but one at most;
each keystroke among them is passed on once, all but one at most, to the shell or, before there is one, to PID 0.
One process has the mutex at most, and one has it just when the byte is set. When the handlers have all come to
their end, nothing is left. -/
structure Relayed (b : ℕ) (es : List Entry) (k : Kernel) (i : Initd) : Prop where
  fetched : ∃ waits, waits.length ≤ 1 ∧
    ((es.filterMap (accepted b)).map word).map taken = es.filterMap (init_fetch b) ++ waits
  passed : ∃ n ≤ 1, (es.filterMap (init_fetch b)).countP isKeystroke = (es.filterMap (init_send b)).length + n
  sends : ∀ s ∈ es.filterMap (init_send b), (s.1 = 0 ∨ s.1 = i.shell_pid) ∧ s.2.toUInt64 = PSIGNAL_KEYSTROKE
  one : ∀ p ∈ k.handlers b, ∀ q ∈ k.handlers b, (i.callback p).inside = true → (i.callback q).inside = true → p = q
  byte : i.psignal_lock ≠ MUTEX_UNLOCKED ↔ ∃ p ∈ k.handlers b, (i.callback p).inside = true
  done : k.handlers b = ∅ → ((es.filterMap (accepted b)).map word).map taken = es.filterMap (init_fetch b) ∧
    (es.filterMap (init_fetch b)).countP isKeystroke = (es.filterMap (init_send b)).length

/-! ### The relay -/

/-- The words that wait, and who is to fetch them. -/
inductive Unread (H : Set ℕ) (i : Initd) : List UInt64 → Prop where
  | nobody : (∀ p ∈ H, (i.callback p).unread = false) → Unread H i []
  | one {u : ℕ} {w : UInt64} : u ∈ H → (i.callback u).unread = true →
      (∀ p ∈ H, (i.callback p).unread = true → p = u) → Unread H i [w]

/-- The number of keystrokes in the hands of the handlers. -/
inductive InHand (H : Set ℕ) (i : Initd) : ℕ → Prop where
  | nobody : (∀ p ∈ H, (i.callback p).hand = false) → InHand H i 0
  | one {u : ℕ} : u ∈ H → (i.callback u).hand = true → InHand H i 1

/-- **The relay**, for a queue and a set of handlers: the words that came in, the answers that were fetched and
the signals that were sent. -/
structure Relaying (words answers : List UInt64) (sends : List (PID_T × UInt32)) (q : SignalQueue) (H : Set ℕ)
    (i : Initd) : Prop where
  waiting : ∃ ws, Holds q ws ∧ words.map taken = answers ++ ws.map taken ∧ Unread H i ws
  hands : ∃ n, InHand H i n ∧ answers.countP isKeystroke = sends.length + n
  mutex : Lib.Behind (i.psignal_lock ≠ MUTEX_UNLOCKED) fun p => p ∈ H ∧ (i.callback p).inside = true
  held : i.psignal_lock ≠ MUTEX_UNLOCKED → ∃ p ∈ H, (i.callback p).inside = true
  shell : i.main ≠ .spin → i.shell_pid = 0
  sent : ∀ s ∈ sends, (s.1 = 0 ∨ s.1 = i.shell_pid) ∧ s.2.toUInt64 = PSIGNAL_KEYSTROKE
  ok : ∀ p ∈ H, (i.callback p).Ok i.shell_pid

section Relay

variable {H : Set ℕ} {i i' : Initd} {p : ℕ} {c : InitCallback} {ws words answers : List UInt64}
  {sends : List (PID_T × UInt32)} {q q' : SignalQueue} {n : ℕ}

@[simp] theorem Initd.goto_self : (i.goto p c).callback p = c := Function.update_self ..

theorem Initd.goto_of_ne {r : ℕ} (h : r ≠ p) : (i.goto p c).callback r = i.callback r := Function.update_of_ne h ..

/-- A test of the place that the step does not change. -/
theorem Initd.goto_test {f : InitCallback → Bool} (h : f c = f (i.callback p)) (r : ℕ) :
    f ((i.goto p c).callback r) = f (i.callback r) := by
  by_cases he : r = p
  · rw [he, goto_self, h]
  · rw [goto_of_ne he]

theorem Unread.congr (h : Unread H i ws) (he : ∀ r, (i'.callback r).unread = (i.callback r).unread) :
    Unread H i' ws := by
  cases h with
  | nobody h => exact .nobody fun p hp => (he p).trans (h p hp)
  | one hu h h1 => exact .one hu ((he _).trans h) fun p hp hr => h1 p hp ((he p).symm.trans hr)

theorem InHand.congr (h : InHand H i n) (he : ∀ r, (i'.callback r).hand = (i.callback r).hand) :
    InHand H i' n := by
  cases h with
  | nobody h => exact .nobody fun p hp => (he p).trans (h p hp)
  | one hu h => exact .one hu ((he _).trans h)

/-- Who has a keystroke has the mutex. -/
theorem InitCallback.inside_of_hand (h : c.hand = true) : c.inside = true := by
  cases c <;> first | rfl | cases h

theorem Initd.forall_goto {P : InitCallback → Prop} (h : ∀ r ∈ H, P (i.callback r)) (hc : P c) :
    ∀ r ∈ H, P ((i.goto p c).callback r) := by
  intro r hr
  by_cases he : r = p
  · rw [he, goto_self]
    exact hc
  · rw [goto_of_ne he]
    exact h r hr

/-- **The mutex is taken.** -/
theorem Relaying.acquire (h : Relaying words answers sends q H i) (hp : p ∈ H) (hc : i.callback p = .mutex_acquire)
    (hl : i.psignal_lock = MUTEX_UNLOCKED) :
    Relaying words answers sends q H ({ i with psignal_lock := 1 }.goto p .psignal_fetch) := by
  obtain ⟨ws, hq, hw, hu⟩ := h.waiting
  obtain ⟨n, hn, heq⟩ := h.hands
  have hset : (1 : MUTEX_T) ≠ MUTEX_UNLOCKED := by decide
  refine ⟨⟨ws, hq, hw, hu.congr ?_⟩, ⟨n, hn.congr ?_, heq⟩, ?_, fun _ => ⟨p, hp, by simp [InitCallback.inside]⟩,
    h.shell, h.sent, Initd.forall_goto h.ok trivial⟩
  · exact Initd.goto_test (f := InitCallback.unread) (by simp [hc, InitCallback.unread])
  · exact Initd.goto_test (f := InitCallback.hand) (by simp [hc, InitCallback.hand])
  · refine h.mutex.acquire (t := p) (not_not.2 hl) hset fun r ⟨hr, hin⟩ => ?_
    by_cases he : r = p
    · exact .inl he
    · rw [Initd.goto_of_ne he] at hin
      exact .inr ⟨hr, hin⟩

/-- The mutex is not free. -/
theorem Relaying.again (h : Relaying words answers sends q H i) (hc : i.callback p = .mutex_acquire)
    (hl : i.psignal_lock ≠ MUTEX_UNLOCKED) :
    Relaying words answers sends q H ({ i with psignal_lock := 1 }.goto p .mutex_acquire) := by
  obtain ⟨ws, hq, hw, hu⟩ := h.waiting
  obtain ⟨n, hn, heq⟩ := h.hands
  have hset : (1 : MUTEX_T) ≠ MUTEX_UNLOCKED := by decide
  have htest : ∀ f : InitCallback → Bool, ∀ r,
      f (({ i with psignal_lock := 1 }.goto p .mutex_acquire).callback r) = f (i.callback r) := fun f r =>
    Initd.goto_test (f := f) (i := { i with psignal_lock := 1 }) (by rw [hc]) r
  refine ⟨⟨ws, hq, hw, hu.congr (htest _)⟩, ⟨n, hn.congr (htest _), heq⟩, ?_, fun _ => ?_,
    h.shell, h.sent, Initd.forall_goto h.ok trivial⟩
  · simp only [htest InitCallback.inside]
    exact ⟨h.mutex.one, fun hf => absurd hset hf⟩
  · obtain ⟨r, hr, hin⟩ := h.held hl
    exact ⟨r, hr, (htest _ r).trans hin⟩

/-- **A step inside** that changes neither the queue nor what is in the hands. -/
theorem Relaying.inside (h : Relaying words answers sends q H i) (hin : c.inside = (i.callback p).inside)
    (hun : c.unread = (i.callback p).unread) (hha : c.hand = (i.callback p).hand) (hok : c.Ok i.shell_pid) :
    Relaying words answers sends q H (i.goto p c) := by
  obtain ⟨ws, hq, hw, hu⟩ := h.waiting
  obtain ⟨n, hn, heq⟩ := h.hands
  have hin := Initd.goto_test (f := InitCallback.inside) hin
  refine ⟨⟨ws, hq, hw, hu.congr (Initd.goto_test (f := InitCallback.unread) hun)⟩,
    ⟨n, hn.congr (Initd.goto_test (f := InitCallback.hand) hha), heq⟩, ?_, fun hl => ?_, h.shell, h.sent,
    Initd.forall_goto h.ok hok⟩
  · simp only [hin]
    exact h.mutex
  · obtain ⟨r, hr, hi⟩ := h.held hl
    exact ⟨r, hr, (hin r).trans hi⟩

/-- **The mutex is given back.** -/
theorem Relaying.release (h : Relaying words answers sends q H i) (hp : p ∈ H) (hc : i.callback p = .mutex_release) :
    Relaying words answers sends q H ({ i with psignal_lock := MUTEX_UNLOCKED }.goto p .exit) := by
  obtain ⟨ws, hq, hw, hu⟩ := h.waiting
  obtain ⟨n, hn, heq⟩ := h.hands
  refine ⟨⟨ws, hq, hw, hu.congr ?_⟩, ⟨n, hn.congr ?_, heq⟩, ?_, fun hl => absurd rfl hl, h.shell, h.sent,
    Initd.forall_goto h.ok trivial⟩
  · exact Initd.goto_test (f := InitCallback.unread) (by simp [hc, InitCallback.unread])
  · exact Initd.goto_test (f := InitCallback.hand) (by simp [hc, InitCallback.hand])
  · refine h.mutex.release (t := p) ⟨hp, by simp [hc, InitCallback.inside]⟩ fun r ⟨hr, hin⟩ => ?_
    by_cases he : r = p
    · rw [he, Initd.goto_self] at hin
      cases hin
    · rw [Initd.goto_of_ne he] at hin
      exact ⟨⟨hr, hin⟩, he⟩

/-- Who has the mutex is the only one that can have a keystroke. -/
theorem Relaying.only_hand (h : Relaying words answers sends q H i) (hp : p ∈ H) (hin : (i.callback p).inside = true)
    {r : ℕ} (hr : r ∈ H) (hne : r ≠ p) : (i.callback r).hand = false := by
  rw [Bool.eq_false_iff]
  exact fun hh => hne (h.mutex.one r p ⟨hr, InitCallback.inside_of_hand hh⟩ ⟨hp, hin⟩)

/-- What the callback does with an answer. -/
theorem InitCallback.fetched (o : UInt64) (shell : PID_T) : (psignal_fetch.next o).inside = true ∧
    (psignal_fetch.next o).unread = false ∧ (psignal_fetch.next o).hand = isKeystroke o ∧
      (psignal_fetch.next o).Ok shell := by
  unfold InitCallback.next isKeystroke
  dsimp only
  split
  next hk => exact ⟨rfl, rfl, by rw [hk]; rfl, by simp [InitCallback.Ok, isKeystroke, hk]⟩
  next hk => exact ⟨rfl, rfl, (beq_eq_false_iff_ne.2 hk).symm, trivial⟩

/-- **A signal is fetched**: the one that waits. -/
theorem Relaying.fetch (h : Relaying words answers sends q H i) (hp : p ∈ H) (hc : i.callback p = .psignal_fetch) :
    Relaying words (answers ++ [taken (q.queue (q.next_index - 1))]) sends q.unlock.pop H
      (i.goto p (InitCallback.psignal_fetch.next (taken (q.queue (q.next_index - 1))))) := by
  obtain ⟨ws, hq, hw, hu⟩ := h.waiting
  obtain ⟨n, hn, heq⟩ := h.hands
  have hin : (i.callback p).inside = true := by simp [hc, InitCallback.inside]
  have hone := fun {r} hr hne => h.only_hand hp hin (r := r) hr hne
  -- nobody has a keystroke
  have hzero : n = 0 := by
    cases hn with
    | nobody => rfl
    | @one u hu hh =>
      by_cases he : u = p
      · rw [he, hc] at hh
        cases hh
      · rw [hone hu he] at hh
        cases hh
  subst hzero
  cases hu with
  | nobody hno =>
    have := hno p hp
    rw [hc] at this
    cases this
  | @one u w hu hun huniq =>
    obtain rfl : p = u := huniq p hp (by simp [hc, InitCallback.unread])
    obtain ⟨hidx, rfl⟩ : q.next_index = 1 ∧ w = q.queue 0 := by
      cases hq with
      | one h1 _ => exact ⟨h1, rfl⟩
    have hi : q.next_index - 1 = 0 := by
      rw [hidx]
      rfl
    rw [List.map_singleton] at hw
    rw [hi]
    generalize taken (q.queue 0) = o at *
    obtain ⟨hin', hun', hha', hok'⟩ := InitCallback.fetched o i.shell_pid
    refine ⟨⟨[], .empty hi, by simpa using hw, .nobody fun r hr => ?_⟩, ⟨(isKeystroke o).toNat, ?_, ?_⟩, ?_,
      fun _ => ⟨p, hp, by rw [Initd.goto_self, hin']⟩, h.shell, h.sent, Initd.forall_goto h.ok hok'⟩
    · by_cases he : r = p
      · rw [he, Initd.goto_self, hun']
      · rw [Initd.goto_of_ne he, Bool.eq_false_iff]
        exact fun hr' => he (huniq r hr hr')
    · cases hk : isKeystroke o with
      | true => exact .one hp (by rw [Initd.goto_self, hha', hk])
      | false =>
        refine .nobody fun r hr => ?_
        by_cases he : r = p
        · rw [he, Initd.goto_self, hha', hk]
        · rw [Initd.goto_of_ne he]
          exact hone hr he
    · rw [List.countP_append, heq, List.countP_singleton]
      cases isKeystroke o <;> rfl
    · simp only [Initd.goto_test (f := InitCallback.inside) (hin'.trans hin.symm)]
      exact h.mutex

/-- **A keystroke is passed on.** -/
theorem Relaying.send {dest : PID_T} {payload : UInt32} (h : Relaying words answers sends q H i) (hp : p ∈ H)
    (hc : i.callback p = .psignal_send dest payload) :
    Relaying words answers (sends ++ [(dest, payload)]) q H (i.goto p .mutex_release) := by
  obtain ⟨ws, hq, hw, hu⟩ := h.waiting
  obtain ⟨n, hn, heq⟩ := h.hands
  have hin : (i.callback p).inside = true := by simp [hc, InitCallback.inside]
  have hok := h.ok p hp
  rw [hc] at hok
  have hone : n = 1 := by
    cases hn with
    | nobody hno =>
      have := hno p hp
      rw [hc] at this
      cases this
    | one => rfl
  have hin' := Initd.goto_test (f := InitCallback.inside) (c := .mutex_release) (hin.symm : _ = (i.callback p).inside)
  refine ⟨⟨ws, hq, hw, hu.congr ?_⟩, ⟨0, .nobody fun r hr => ?_, ?_⟩, ?_, fun hl => ?_, h.shell, fun s hs => ?_,
    Initd.forall_goto h.ok trivial⟩
  · exact Initd.goto_test (f := InitCallback.unread) (by simp [hc, InitCallback.unread])
  · by_cases he : r = p
    · rw [he, Initd.goto_self]
      rfl
    · rw [Initd.goto_of_ne he]
      exact h.only_hand hp hin hr he
  · rw [heq, hone, List.length_append, List.length_singleton]
  · simp only [hin']
    exact h.mutex
  · obtain ⟨r, hr, hi⟩ := h.held hl
    exact ⟨r, hr, (hin' r).trans hi⟩
  · rcases List.mem_append.1 hs with hs | hs
    · exact h.sent s hs
    · rw [List.mem_singleton.1 hs]
      exact hok

/-- **A handler exits**, with nothing to do any more. -/
theorem Relaying.exit (h : Relaying words answers sends q H i) (hc : i.callback p = .exit) :
    Relaying words answers sends q (H \ {p}) i := by
  obtain ⟨ws, hq, hw, hu⟩ := h.waiting
  obtain ⟨n, hn, heq⟩ := h.hands
  have hstay : ∀ f : InitCallback → Bool, f .exit = false → ∀ r ∈ H, f (i.callback r) = true → r ∈ H \ {p} :=
    fun f hf r hr ht => ⟨hr, fun he => by rw [Set.mem_singleton_iff.1 he, hc, hf] at ht; cases ht⟩
  refine ⟨⟨ws, hq, hw, ?_⟩, ⟨n, ?_, heq⟩, h.mutex.mono fun r hr => ⟨hr.1.1, hr.2⟩, fun hl => ?_, h.shell, h.sent,
    fun r hr => h.ok r hr.1⟩
  · cases hu with
    | nobody hno => exact .nobody fun r hr => hno r hr.1
    | one hu hun huniq => exact .one (hstay _ rfl _ hu hun) hun fun r hr => huniq r hr.1
  · cases hn with
    | nobody hno => exact .nobody fun r hr => hno r hr.1
    | one hu hh => exact .one (hstay _ rfl _ hu hh) hh
  · obtain ⟨r, hr, hi⟩ := h.held hl
    exact ⟨r, hstay _ rfl r hr hi, hi⟩

/-- **A signal is accepted**, and has a handler. -/
theorem Relaying.post {w : UInt64} (h : Relaying words answers sends q H i) (hl : q.rwlock ≠ 1) (hp : p ∉ H)
    (hc : i.callback p = .mutex_acquire) : Relaying (words ++ [w]) answers sends (q.push w) (insert p H) i := by
  obtain ⟨ws, hq, hw, hu⟩ := h.waiting
  obtain ⟨n, hn, heq⟩ := h.hands
  have hidle : ∀ f : InitCallback → Bool, f .mutex_acquire = false →
      ∀ r ∈ insert p H, f (i.callback r) = true → r ∈ H := fun f hf r hr ht => hr.resolve_left fun he => by
      rw [he, hc, hf] at ht
      cases ht
  cases hq with
  | one _ hl' => exact absurd hl' hl
  | empty h0 =>
    refine ⟨⟨[w], .push h0 w, ?_, ?_⟩, ⟨n, ?_, heq⟩, h.mutex.mono fun r hr => ⟨hidle _ rfl r hr.1 hr.2, hr.2⟩,
      fun hl => ?_, h.shell, h.sent, fun r hr => ?_⟩
    · simp [hw]
    · cases hu with
      | nobody hno =>
        refine .one (Set.mem_insert p H) (by rw [hc]; rfl) fun r hr hun => ?_
        refine hr.resolve_right fun hr => ?_
        rw [hno r hr] at hun
        cases hun
    · cases hn with
      | nobody hno =>
        refine .nobody fun r hr => ?_
        rw [Bool.eq_false_iff]
        intro hh
        have hf := hno r (hidle _ rfl r hr hh)
        rw [hh] at hf
        cases hf
      | one hu hh => exact .one (Set.mem_insert_of_mem p hu) hh
    · obtain ⟨r, hr, hi⟩ := h.held hl
      exact ⟨r, Set.mem_insert_of_mem p hr, hi⟩
    · rcases hr with rfl | hr
      · rw [hc]
        trivial
      · exact h.ok r hr

/-- A callback is installed. -/
theorem Holds.hook (h : Holds q ws) (callback : UInt64) : Holds { q with signal_callback := callback } ws := by
  cases h with
  | empty h0 => exact .empty h0
  | one h1 hl => exact .one h1 hl

/-- Nothing but the callback of the queue and what `main` knows changes. -/
theorem Relaying.main (h : Relaying words answers sends q H i) (hq : ∀ ws, Holds q ws → Holds q' ws)
    (hl : i'.psignal_lock = i.psignal_lock) (hc : i'.callback = i.callback)
    (hs : i'.shell_pid = i.shell_pid ∨ i.shell_pid = 0) (hm : i'.main ≠ .spin → i'.shell_pid = 0) :
    Relaying words answers sends q' H i' := by
  obtain ⟨ws, hH, hw, hu⟩ := h.waiting
  obtain ⟨n, hn, heq⟩ := h.hands
  have hdest : ∀ {dest : PID_T}, dest = 0 ∨ dest = i.shell_pid → dest = 0 ∨ dest = i'.shell_pid := by
    rintro dest (h0 | h0)
    · exact .inl h0
    · rcases hs with hs | hs
      · exact .inr (h0.trans hs.symm)
      · exact .inl (h0.trans hs)
  refine ⟨⟨ws, hq ws hH, hw, hu.congr fun r => by rw [hc]⟩, ⟨n, hn.congr fun r => by rw [hc], heq⟩, ?_, ?_, hm,
    fun s hs => ⟨hdest (h.sent s hs).1, (h.sent s hs).2⟩, fun r hr => ?_⟩
  · rw [hl, hc]
    exact h.mutex
  · rw [hl, hc]
    exact h.held
  · have hok := h.ok r hr
    rw [hc]
    generalize i.callback r = c at *
    cases c with
    | psignal_send => exact ⟨hdest hok.1, hok.2⟩
    | _ => exact hok

end Relay

end Iridium
