import Iridium.Proc.Effect

/-!
# The delivery of signals

A signal queue is popped from the end it is filled at. Its signals come in the order they
were accepted all the same, and each comes once: `psignal_send` locks the queue, the read that
takes the signal out unlocks it, and so a queue that nobody but its process reads never holds
more than one signal.

`delivered_in_order` shows this for any process at an address `r` from its beginning to its
end, in any run in which it has its PID for itself and no callback (`Mailbox`). The process may
be sent signals by processes, by signal handlers and by the keyboard.
-/

namespace Iridium

/-! ### Words -/

/-- A positive PID in a word. -/
theorem toNat_of_pos {pid : PID_T} (h : 0 < pid) :
    0 < pid.toInt64.toUInt64.toNat ∧ pid.toInt64.toUInt64.toNat < 2 ^ 15 := by
  have hi : 0 < pid.toInt := by simpa [Int16.lt_iff_toInt_lt] using h
  have hlt : pid.toInt < 2 ^ 15 := pid.toInt_lt
  have hn : (pid.toInt64.toUInt64.toNat : ℤ) = pid.toInt := by
    have h64 : pid.toInt64.toInt = pid.toInt := Int16.toInt_toInt64 pid
    have hb : pid.toInt64.toInt = pid.toInt64.toUInt64.toBitVec.toInt := rfl
    rw [← h64, hb, BitVec.toInt_eq_toNat_cond]
    rw [h64] at hb
    rw [BitVec.toInt_eq_toNat_cond] at hb
    split at hb
    · rw [if_pos ‹_›]; rfl
    · have := pid.toInt64.toUInt64.toBitVec.isLt
      omega
  omega

/-- The word of a signal, as a number. -/
theorem psignal_word_toNat {pid : PID_T} (h : 0 < pid) (dword : UInt32) :
    (psignal_word pid dword).toNat = pid.toInt64.toUInt64.toNat * 2 ^ 32 + dword.toNat := by
  obtain ⟨-, hlt⟩ := toNat_of_pos h
  unfold psignal_word
  generalize pid.toInt64.toUInt64 = w at *
  have hsh : (w <<< 32).toNat = w.toNat <<< 32 := by
    rw [UInt64.toNat_shiftLeft]
    simp [Nat.shiftLeft_eq]
    omega
  rw [UInt64.toNat_or, hsh, UInt32.toNat_toUInt64, ← Nat.shiftLeft_add_eq_or_of_lt dword.toNat_lt,
    Nat.shiftLeft_eq]

theorem extract_source {pid : PID_T} (h : 0 < pid) (dword : UInt32) :
    PSIGNAL_EXTRACT_SOURCE (psignal_word pid dword) = ofInt16 pid := by
  obtain ⟨-, hlt⟩ := toNat_of_pos h
  apply UInt64.toNat_inj.1
  have hd := dword.toNat_lt
  unfold PSIGNAL_EXTRACT_SOURCE ofInt16
  rw [UInt64.toNat_and, UInt64.toNat_shiftRight, psignal_word_toNat h,
    show (0xFFFF : UInt64).toNat = 2 ^ 16 - 1 from rfl, Nat.and_two_pow_sub_one_eq_mod]
  simp [Nat.shiftRight_eq_div_pow]
  omega

theorem extract_payload {pid : PID_T} (h : 0 < pid) (dword : UInt32) :
    PSIGNAL_EXTRACT_SIGPAYLOAD (psignal_word pid dword) = dword.toUInt64 := by
  apply UInt64.toNat_inj.1
  have hd := dword.toNat_lt
  unfold PSIGNAL_EXTRACT_SIGPAYLOAD
  rw [UInt64.toNat_and, psignal_word_toNat h, show (0xFFFFFFFF : UInt64).toNat = 2 ^ 32 - 1 from rfl,
    Nat.and_two_pow_sub_one_eq_mod]
  simp

theorem top_bits_untouched {pid : PID_T} (h : 0 < pid) (dword : UInt32) :
    PSIGNAL_TOP_BITS_UNTOUCHED (psignal_word pid dword) = true := by
  obtain ⟨-, hlt⟩ := toNat_of_pos h
  have hd := dword.toNat_lt
  unfold PSIGNAL_TOP_BITS_UNTOUCHED
  rw [beq_iff_eq]
  apply UInt64.toNat_inj.1
  rw [UInt64.toNat_shiftRight, psignal_word_toNat h]
  simp [Nat.shiftRight_eq_div_pow]
  omega

theorem psignal_word_ne_zero {pid : PID_T} (h : 0 < pid) (dword : UInt32) :
    psignal_word pid dword ≠ 0 := by
  obtain ⟨hpos, -⟩ := toNat_of_pos h
  intro h0
  have := psignal_word_toNat h dword
  rw [h0] at this
  simp at this
  omega
/-! ### What is sent and read -/

/-- The signal that an action sends to the process at `r`, if the call returns `EXIT_SUCCESS`:
the PID of the sender, or of its parent when the sender is a signal handler, and the payload. -/
def accepted (r : ℕ) (e : Entry) : Option (PID_T × UInt32) :=
  match e.2.1.sends e.1 with
  | none => none
  | some (k, dest, dword) =>
    if e.1.Live r ∧ dest = (e.1.procs r).pid then
      match psignal_send k dest dword with
      | .ok (errno, _) => if errno = EXIT_SUCCESS then some (sender_pid e.1, dword) else none
      | .error _ => none
    else none

/-- The word that the process at `r` reads, if it reads one that is not zero. -/
def received (r : ℕ) (e : Entry) : Option UInt64 :=
  match e.2.1 with
  | .psignal_read => if e.1.current_task = r ∧ e.2.2 ≠ 0 then some e.2.2 else none
  | _ => none

/-- Source and payload of a word. -/
def decode (w : UInt64) : UInt64 × UInt64 := (PSIGNAL_EXTRACT_SOURCE w, PSIGNAL_EXTRACT_SIGPAYLOAD w)

/-- Source and payload of a signal, as words. -/
def content (s : PID_T × UInt32) : UInt64 × UInt64 := (ofInt16 s.1, s.2.toUInt64)

/-- The action installs a signal callback. -/
def installs : Action → Bool
  | .psignal_hook callback => callback != 0
  | _ => false

/-- The action sends a signal to the PID of the process at `r`. -/
def sends_to (r : ℕ) (k : Kernel) (a : Action) : Bool :=
  match a.sends k with
  | some (_, dest, _) => dest == (k.procs r).pid
  | none => false

/-- **What the process at `r` keeps to**, and who sends it signals: it has its PID for itself,
is no signal handler and never installs a callback, and is sent signals under positive PIDs. -/
structure Mailbox (r : ℕ) (k : Kernel) (e : Action × UInt64) : Prop where
  sole : k.Live r → SolePid k k.queue r
  not_handler : k.Live r → (k.procs r).isHandler = false
  no_callback : k.current_task = r → installs e.1 = false
  senders : k.Live r → sends_to r k e.1 = true → 0 < sender_pid k

instance (r : ℕ) (k : Kernel) (e : Action × UInt64) : Decidable (Mailbox r k e) :=
  decidable_of_iff
    ((k.Live r → ∀ q ∈ k.queue, (k.procs q).pid = (k.procs r).pid → q = r) ∧
      (k.Live r → (k.procs r).isHandler = false) ∧ (k.current_task = r → installs e.1 = false) ∧
      (k.Live r → sends_to r k e.1 = true → 0 < sender_pid k))
    ⟨fun h => ⟨h.1, h.2.1, h.2.2.1, h.2.2.2⟩, fun h => ⟨h.sole, h.not_handler, h.no_callback, h.senders⟩⟩

/-! ### One queue -/

/-- The word of a signal. -/
def word (s : PID_T × UInt32) : UInt64 := psignal_word s.1 s.2

/-- The signals in a queue: none, or one behind the lock. -/
inductive Holds (q : SignalQueue) : List UInt64 → Prop
  | empty : q.next_index = 0 → Holds q []
  | one : q.next_index = 1 → q.rwlock = 1 → Holds q [q.queue 0]

/-- The queue has no callback, and holds what was sent and not yet read. -/
structure Boxed (q : SignalQueue) (sent : List (PID_T × UInt32)) (read : List UInt64) : Prop where
  callback : q.signal_callback = 0
  positive : ∀ s ∈ sent, 0 < s.1
  pending : ∃ ws, Holds q ws ∧ sent.map word = read ++ ws

section Queue

variable {q : SignalQueue} {sent : List (PID_T × UInt32)} {read : List UInt64}

/-- A new queue. -/
theorem Boxed.init (q : SignalQueue) : Boxed (psignal_queue_init q) [] [] :=
  ⟨rfl, by simp, [], .empty rfl, rfl⟩

/-- A signal queued in an empty queue. -/
theorem Holds.push (h0 : q.next_index = 0) (w : UInt64) : Holds (q.push w) [w] := by
  have hq : (q.push w).queue 0 = w := by simp [SignalQueue.push, h0]
  have hi : (q.push w).next_index = 1 := by
    show q.next_index + 1 = 1
    rw [h0]
    rfl
  have hone : Holds (q.push w) [(q.push w).queue 0] := .one hi rfl
  rwa [hq] at hone

/-- **A signal queued**: the queue was empty, since it was not locked. -/
theorem Boxed.push (h : Boxed q sent read) (hu : q.rwlock ≠ 1) {s : PID_T × UInt32} (hs : 0 < s.1) :
    Boxed (q.push (word s)) (sent ++ [s]) read := by
  obtain ⟨ws, hh, heq⟩ := h.pending
  refine ⟨h.callback, fun t ht => ?_, [word s], ?_, ?_⟩
  · rcases List.mem_append.1 ht with ht | ht
    · exact h.positive t ht
    · rw [List.mem_singleton.1 ht]
      exact hs
  · cases hh with
    | empty h0 => exact .push h0 _
    | one _ hl => exact absurd hl hu
  · cases hh with
    | empty => simpa using heq
    | one _ hl => exact absurd hl hu

/-- A read of an empty queue. -/
theorem Boxed.unlock (h : Boxed q sent read) (h0 : q.next_index = 0) :
    Boxed q.unlock sent read ∧ sent.map word = read := by
  obtain ⟨ws, hh, heq⟩ := h.pending
  cases hh with
  | empty => exact ⟨⟨h.callback, h.positive, [], .empty h0, heq⟩, by simpa using heq⟩
  | one h1 =>
    rw [h0] at h1
    cases h1

/-- **A read of a queue that is not empty** takes the signal sent after those already read. -/
theorem Boxed.pop (h : Boxed q sent read) (h0 : q.next_index ≠ 0) :
    Boxed q.unlock.pop sent (read ++ [q.queue (q.next_index - 1)]) ∧
      ∃ s ∈ sent, q.queue (q.next_index - 1) = word s := by
  obtain ⟨ws, hh, heq⟩ := h.pending
  cases hh with
  | empty he => exact absurd he h0
  | one h1 =>
    have hi : q.next_index - 1 = 0 := by
      rw [h1]
      rfl
    rw [hi]
    refine ⟨⟨h.callback, h.positive, [], .empty hi, by simpa using heq⟩, ?_⟩
    have hm : q.queue 0 ∈ sent.map word := by
      rw [heq]
      simp
    obtain ⟨s, hs, he⟩ := List.mem_map.1 hm
    exact ⟨s, hs, he.symm⟩

end Queue

/-! ### One step -/

section Step

variable {k k' : Kernel} {a : Action} {o : UInt64} {r : ℕ} {es : List Entry}

/-- An action that sends nothing to `r`. -/
theorem accepted_eq_none (h : sends_to r k a = false) : accepted r (k, a, o) = none := by
  unfold accepted
  unfold sends_to at h
  dsimp only
  split
  next => rfl
  next hs =>
    rw [hs] at h
    rw [if_neg fun hl => by simp [hl.2] at h]

/-- A dead process gets nothing. -/
theorem accepted_of_not_live (h : ¬k.Live r) : accepted r (k, a, o) = none := by
  unfold accepted
  dsimp only
  split
  next => rfl
  next => rw [if_neg fun hl => h hl.1]

/-- A call that returns an error, or does not return. -/
theorem accepted_of_error {k₁ k₂ : Kernel} {dest : PID_T} {dword : UInt32} {e : ERRNO_T}
    (hs : a.sends k = some (k₁, dest, dword)) (hcall : psignal_send k₁ dest dword = .ok (e, k₂))
    (he : e ≠ EXIT_SUCCESS) : accepted r (k, a, o) = none := by
  unfold accepted
  dsimp only
  rw [hs]
  dsimp only
  rw [hcall]
  dsimp only
  rw [if_neg he, ite_self]

/-- A call that returns `EXIT_SUCCESS`. -/
theorem accepted_of_success {k₁ k₂ : Kernel} {dest : PID_T} {dword : UInt32}
    (hs : a.sends k = some (k₁, dest, dword))
    (hcall : psignal_send k₁ dest dword = .ok (EXIT_SUCCESS, k₂)) (hl : k.Live r)
    (hd : dest = (k.procs r).pid) : accepted r (k, a, o) = some (sender_pid k, dword) := by
  unfold accepted
  dsimp only
  rw [hs]
  dsimp only
  rw [hcall, if_pos ⟨hl, hd⟩]
  rfl

/-- Who is not `r` reads nothing of `r`. -/
theorem received_eq_none (h : a = .psignal_read → k.current_task ≠ r) : received r (k, a, o) = none := by
  unfold received
  dsimp only
  split
  next => rw [if_neg fun hl => h rfl hl.1]
  next => rfl

/-- The process that a signal reaches is the only one with the PID. -/
theorem sends_to_iff {k₁ : Kernel} {dest : PID_T} {dword : UInt32} {p : ℕ}
    (hs : a.sends k = some (k₁, dest, dword)) (hp : recipient k dest = some p)
    (hu : SolePid k k.queue r) : sends_to r k a = true ↔ p = r := by
  have hpid : (k.procs p).pid = dest := by
    have := List.find?_some (Option.filter_eq_some_iff.1 hp).1
    simpa using this
  unfold sends_to
  rw [hs]
  dsimp only
  rw [beq_iff_eq, ← hpid]
  exact ⟨fun h => hu p (recipient_mem hp) h, fun h => by rw [h]⟩

/-- No signal handler has the process at `r` for its parent. -/
def Unhandled (r : ℕ) (k : Kernel) : Prop :=
  ∀ h, k.Live h → (k.procs h).isHandler = true → (k.procs h).parent ≠ r

/-- The signals sent to `r` and the words read, after one more entry. -/
theorem Boxed.none {q : SignalQueue} {sent : List (PID_T × UInt32)} {read : List UInt64}
    (h : Boxed q sent read) {e : Entry} (ha : accepted r e = .none) (hr : received r e = .none) :
    Boxed q (sent ++ (accepted r e).toList) (read ++ (received r e).toList) := by
  simpa [ha, hr] using h

/-- A signal queued for `r`. -/
theorem deliver_sigq_self {x : UInt32} {dword : UInt32} :
    ((deliver (k.keyed x) r dword).procs r).sigq =
      (k.procs r).sigq.push (word (sender_pid k, dword)) := by
  have hpid : sender_pid (k.keyed x) = sender_pid k := rfl
  simp [deliver, Kernel.modify, Kernel.keyed, word, ← hpid]

/-- A signal queued for another process. -/
theorem deliver_sigq_of_ne {x : UInt32} {p : ℕ} {dword : UInt32} (hp : p ≠ r) :
    ((deliver (k.keyed x) p dword).procs r).sigq = (k.procs r).sigq := by
  simp [deliver, Kernel.modify, Function.update_of_ne hp.symm, Kernel.keyed]

/-- What the action sends, if it sends anything, does not get into the queue of `r`. -/
def Misses (r : ℕ) (k : Kernel) (a : Action) : Prop :=
  ∀ {k₁ dest dword}, a.sends k = some (k₁, dest, dword) →
    (∃ e k₂, psignal_send k₁ dest dword = .ok (e, k₂) ∧ e ≠ EXIT_SUCCESS) ∨
      ∃ p ≠ r, recipient k dest = some p

/-- The word that a read which finds this word in the queue returns. -/
def taken (w : UInt64) : UInt64 := if PSIGNAL_TOP_BITS_UNTOUCHED w then w else 0

/-- **What happens to the queue** of a process without callback. -/
inductive Mail (k : Kernel) (r : ℕ) : Action → UInt64 → SignalQueue → Prop where
  /-- Nothing. -/
  | same {a : Action} {o : UInt64} : Misses r k a → (a = .psignal_read → k.current_task ≠ r) →
      Mail k r a o (k.procs r).sigq
  /-- A signal is queued. -/
  | post {a : Action} {o : UInt64} {k₁ k₂ : Kernel} {dest : PID_T} {dword : UInt32} :
      a.sends k = some (k₁, dest, dword) → recipient k dest = some r →
      psignal_send k₁ dest dword = .ok (EXIT_SUCCESS, k₂) →
      Mail k r a o ((k.procs r).sigq.push (word (sender_pid k, dword)))
  /-- The process reads an empty queue. -/
  | empty : k.current_task = r → (k.procs r).sigq.next_index = 0 →
      Mail k r .psignal_read 0 (k.procs r).sigq.unlock
  /-- The process reads a signal. -/
  | pop : k.current_task = r → (k.procs r).sigq.next_index ≠ 0 →
      Mail k r .psignal_read (taken ((k.procs r).sigq.queue ((k.procs r).sigq.next_index - 1)))
        (k.procs r).sigq.unlock.pop

/-- **A read**, of `r` or of another process. -/
theorem mail_read (hw : k.WellFormed) (hh : (k.procs r).isHandler = false) (hn : Unhandled r k)
    (hs : k.spinning = false) :
    Mail k r .psignal_read (psignal_read k).1 ((psignal_read k).2.procs r).sigq := by
  by_cases hc : k.current_task = r
  · have howner : signal_owner k = r := by
      unfold signal_owner Kernel.current
      rw [hc, hh]
      rfl
    have hidx : k.current.sigq.next_index = (k.procs r).sigq.next_index := by
      unfold Kernel.current
      rw [hc]
    rw [psignal_read_eq, hidx, howner]
    split
    next h0 => simpa [Kernel.modify] using Mail.empty hc h0
    next h0 =>
      have hread : signal_read k = taken ((k.procs r).sigq.queue ((k.procs r).sigq.next_index - 1)) := by
        unfold signal_read
        rw [howner]
        rfl
      rw [hread]
      simpa [Kernel.modify] using Mail.pop hc h0
  · have howner : r ≠ signal_owner k := by
      unfold signal_owner
      split
      next hh => exact fun he => hn _ (hw.running hs) hh he.symm
      next => exact fun he => hc he.symm
    have hsig : ((psignal_read k).2.procs r).sigq = (k.procs r).sigq := by
      rw [psignal_read_eq]
      split <;> simp [Kernel.modify, howner]
    rw [hsig]
    exact .same (fun hs => by cases hs) fun _ => hc

/-- A signal for another process. -/
theorem mail_elsewhere {k₁ : Kernel} {dest : PID_T} {dword : UInt32} {p : ℕ}
    (hsend : a.sends k = some (k₁, dest, dword)) (hp : recipient k dest = some p) (hpr : p ≠ r) :
    Mail k r a o (k.procs r).sigq := by
  refine .same (fun hs => .inr ⟨p, hpr, ?_⟩) fun ha => ?_
  · rw [hsend] at hs
    obtain ⟨-, rfl, -⟩ : _ ∧ dest = _ ∧ dword = _ := by simpa using hs
    exact hp
  · rw [ha] at hsend
    cases hsend

/-- **One action, and the queue of `r`.** -/
theorem mail (hw : k.WellFormed) (hl : k.Live r) (hh : (k.procs r).isHandler = false)
    (hcb : (k.procs r).sigq.signal_callback = 0) (hi : k.current_task = r → installs a = false)
    (hn : Unhandled r k) (hE : Effect k a o k') : Mail k r a o (k'.procs r).sigq := by
  cases hE with
  | quiet hq hi =>
    rw [hq.procs]
    refine .same (fun hs => .inl (hi.sends hs).2) fun ha => ?_
    have := hi.plain
    rw [ha] at this
    cases this
  | read hs => exact mail_read hw hh hn hs
  | @hook callback hs =>
    have hsig : ((psignal_hook k callback).procs r).sigq = (k.procs r).sigq := by
      by_cases hc : k.current_task = r
      · have h0 : callback = 0 := by simpa [installs] using hi hc
        subst hc h0
        simp [psignal_hook, Kernel.modify, ← hcb]
      · simp [psignal_hook, Kernel.modify, Function.update_of_ne (Ne.symm hc)]
    rw [hsig]
    exact .same (fun hs => by cases hs) fun ha => by cases ha
  | @queued _ _ x dest dword p hsend hp hc hcall =>
    by_cases hpr : p = r
    · subst hpr
      rw [deliver_sigq_self]
      exact .post hsend hp hcall
    · rw [deliver_sigq_of_ne hpr]
      exact mail_elsewhere hsend hp hpr
  | @handled _ _ x dest dword p _ _ _ hsend hp hc hs =>
    have hpr : p ≠ r := fun he => hc (he ▸ hcb)
    rw [Kernel.link_procs (Kernel.fresh_ne hs (hw.le hl)), deliver_sigq_of_ne hpr]
    exact mail_elsewhere hsend hp hpr
  | spawned _ hs =>
    rw [Kernel.link_procs (Kernel.fresh_ne hs (hw.le hl))]
    exact .same (fun hs => by cases hs) fun ha => by cases ha
  | exited ha hs hrf =>
    rw [Kernel.killed_procs (hw.linked.ring.prev_ne (hw.running hs) (hw.ne_base hrf))]
    have hnone : a.sends k = none := by cases a <;> first | rfl | cases ha
    refine .same (fun hs => ?_) fun he => ?_
    · rw [hnone] at hs
      cases hs
    · rw [he] at ha
      cases ha
  | timer =>
    rw [irq0_isr_procs]
    exact .same (fun hs => by cases hs) fun ha => by cases ha

/-- **One action, and the signals of `r`.** Who reads nothing has read everything. -/
theorem Boxed.mail {sent : List (PID_T × UInt32)} {read : List UInt64} {q : SignalQueue}
    (h : Boxed (k.procs r).sigq sent read) (hl : k.Live r) (hC : Mailbox r k (a, o)) (hm : Mail k r a o q) :
    Boxed q (sent ++ (accepted r (k, a, o)).toList) (read ++ (received r (k, a, o)).toList) ∧
      (a = .psignal_read → k.current_task = r → o = 0 → sent.map word = read) := by
  cases hm with
  | same hmiss hr =>
    refine ⟨h.none ?_ (received_eq_none hr), fun ha hc => absurd hc (hr ha)⟩
    cases hs : a.sends k with
    | none => exact accepted_eq_none (by simp [sends_to, hs])
    | some c =>
      rcases hmiss hs with ⟨e, k₂, hcall, he⟩ | ⟨p, hne, hp⟩
      · exact accepted_of_error hs hcall he
      · refine accepted_eq_none ?_
        rw [Bool.eq_false_iff]
        exact fun hto => hne ((sends_to_iff hs hp (hC.sole hl)).1 hto)
  | @post _ _ _ _ dest dword hs hp hcall =>
    have hread : received r (k, a, o) = .none := received_eq_none fun ha => by
      rw [ha] at hs
      cases hs
    have hto := (sends_to_iff hs hp (hC.sole hl)).2 rfl
    have hdest : dest = (k.procs r).pid := by simpa [sends_to, hs] using hto
    have hpos : 0 < (sender_pid k, dword).1 := hC.senders hl hto
    have hpush := h.push (recipient_accepts hp).unlocked hpos
    rw [accepted_of_success hs hcall hl hdest, hread]
    refine ⟨by rwa [← List.append_nil read] at hpush, fun ha => ?_⟩
    rw [ha] at hs
    cases hs
  | empty hc h0 =>
    obtain ⟨hb, heq⟩ := h.unlock h0
    rw [accepted_eq_none rfl]
    exact ⟨by simpa [received] using hb, fun _ _ _ => heq⟩
  | pop hc h0 =>
    obtain ⟨hb, s, hs, hword⟩ := h.pop h0
    -- the word is that of a signal sent, so it passes the test and is not zero
    have hpos := h.positive s hs
    have ht : taken (word s) = word s := if_pos (top_bits_untouched hpos s.2)
    have hne : word s ≠ 0 := psignal_word_ne_zero hpos s.2
    rw [hword] at hb ⊢
    rw [ht, accepted_eq_none rfl]
    exact ⟨by simpa [received, hc, hne] using hb, fun _ _ h0 => absurd h0 hne⟩

/-- The signals sent to `r` in a run, and the words it read. -/
def sent (r : ℕ) (es : List Entry) : List (PID_T × UInt32) := es.filterMap (accepted r)

def read (r : ℕ) (es : List Entry) : List UInt64 := es.filterMap (received r)

theorem sent_snoc (e : Entry) : sent r (es ++ [e]) = sent r es ++ (accepted r e).toList := by
  unfold sent
  cases h : accepted r e <;> simp [h]

theorem read_snoc (e : Entry) : read r (es ++ [e]) = read r es ++ (received r e).toList := by
  unfold read
  cases h : received r e <;> simp [h]

/-- **What a run has done for `r`**, before it is there, while it is and afterwards. -/
structure Delivered (r : ℕ) (es : List Entry) (k : Kernel) : Prop where
  parents : ∀ h, k.Live h → (k.procs h).isHandler = true → (k.procs h).parent ≤ k.frontier
  unhandled : Unhandled r k
  unborn : k.frontier < r → sent r es = [] ∧ read r es = []
  boxed : k.Live r → (k.procs r).isHandler = false → Boxed (k.procs r).sigq (sent r es) (read r es)
  positive : ∀ s ∈ sent r es, 0 < s.1
  order : read r es <+: (sent r es).map word

theorem Booted.delivered (h : Booted k) : Delivered r [] k where
  parents _ hp hh := absurd hh (h.no_handler hp)
  unhandled _ hp hh := absurd hh (h.no_handler hp)
  unborn _ := ⟨rfl, rfl⟩
  boxed hr _ := by
    rw [h.live_eq hr]
    exact ⟨h.signal_callback, by simp [sent], [], .empty h.next_index, rfl⟩
  positive := by simp [sent]
  order := List.nil_prefix

/-- Nothing is sent to, and nothing read by, a process that is not there. -/
theorem not_live_entry (hw : k.WellFormed) (hl : ¬k.Live r) (hE : Effect k a o k') :
    accepted r (k, a, o) = none ∧ received r (k, a, o) = none := by
  refine ⟨accepted_of_not_live hl, received_eq_none fun ha hc => ?_⟩
  cases hE with
  | read hs => exact hl (hc ▸ hw.running hs)
  | quiet _ hi =>
    have := hi.plain
    rw [ha] at this
    cases this
  | queued hs | handled hs =>
    rw [ha] at hs
    cases hs
  | exited hx =>
    rw [ha] at hx
    cases hx
  | hook | spawned | timer => cases ha

/-- The signal handlers after one more action, when the process at `r` has no callback. -/
theorem Unhandled.effect (hw : k.WellFormed) (hn : Unhandled r k)
    (hp : ∀ h, k.Live h → (k.procs h).isHandler = true → (k.procs h).parent ≤ k.frontier)
    (hcb : k.Live r → (k.procs r).sigq.signal_callback = 0) (hE : Effect k a o k') :
    ∀ h, k'.Live h → (k'.procs h).isHandler = true →
      (k'.procs h).parent ≤ k.frontier ∧ (k'.procs h).parent ≠ r := by
  intro h hl' hh
  by_cases hl : k.Live h
  · have hrole := hw.sameRole hE (hw.le hl)
    rw [hrole.isHandler] at hh
    rw [hrole.parent]
    exact ⟨hp h hl hh, hn h hl hh⟩
  · rcases created hw hE hl hl' with hf | hc
    · rw [hf.not_handler] at hh
      cases hh
    · refine ⟨hw.le hc.owner, fun he => hc.callback ?_⟩
      have howner := hc.owner
      rw [he] at howner ⊢
      exact hcb howner

/-- **One more step.** -/
theorem Delivered.effect (hw : k.WellFormed) (h : Delivered r es k) (hC : Mailbox r k (a, o))
    (hE : Effect k a o k') : Delivered r (es ++ [(k, a, o)]) k' := by
  have hle := frontier_le hE
  have hhandler := h.unhandled.effect hw h.parents
    (fun hl => (h.boxed hl (hC.not_handler hl)).callback) hE
  by_cases hl : k.Live r
  · have hh := hC.not_handler hl
    have hbox := h.boxed hl hh
    have hb := (hbox.mail hl hC (mail hw hl hh hbox.callback hC.no_callback h.unhandled hE)).1
    rw [← sent_snoc, ← read_snoc] at hb
    obtain ⟨ws, -, heq⟩ := hb.pending
    exact
      { parents := fun p hp hh => Nat.le_trans (hhandler p hp hh).1 hle
        unhandled := fun p hp hh => (hhandler p hp hh).2
        unborn := fun hlt => absurd (Nat.lt_of_le_of_lt hle hlt) (Nat.not_lt.2 (hw.le hl))
        boxed := fun _ _ => hb
        positive := hb.positive
        order := heq ▸ List.prefix_append _ _ }
  · obtain ⟨ha, hr⟩ := not_live_entry hw hl hE
    have hs : sent r (es ++ [(k, a, o)]) = sent r es := by rw [sent_snoc, ha]; simp
    have hd : read r (es ++ [(k, a, o)]) = read r es := by rw [read_snoc, hr]; simp
    refine
      { parents := fun p hp hh => Nat.le_trans (hhandler p hp hh).1 hle
        unhandled := fun p hp hh => (hhandler p hp hh).2
        unborn := fun hlt => ?_
        boxed := fun hp hh => ?_
        positive := hs ▸ h.positive
        order := by rw [hs, hd]; exact h.order }
    · rw [hs, hd]
      exact h.unborn (Nat.lt_of_le_of_lt hle hlt)
    · rw [hs, hd]
      rcases created hw hE hl hp with hf | hc
      · obtain ⟨h₁, h₂⟩ := h.unborn hf.fresh
        rw [h₁, h₂, hf.sigq]
        exact .init _
      · rw [hc.handler] at hh
        cases hh

/-- A signal decodes to its sender and its payload. -/
theorem decode_word {s : PID_T × UInt32} (h : 0 < s.1) : decode (word s) = content s := by
  unfold decode word content
  rw [extract_source h, extract_payload h]

/-- **The signals of `r` are delivered in order**: what it has read is what was sent to it first,
it reads nothing only when it has read everything, and a call that fails adds nothing. -/
structure InOrder (r : ℕ) (es : List Entry) (k : Kernel) : Prop where
  order : (read r es).map decode <+: (sent r es).map content
  empty : ∀ k', Mailbox r k (.psignal_read, 0) → k.current_task = r → Step k (.psignal_read, 0) k' →
    (read r es).map decode = (sent r es).map content
  error : ∀ a o k', k.Live r → Mailbox r k (a, o) → Step k (a, o) k' → sends_to r k a = true →
    accepted r (k, a, o) = none → (k'.procs r).sigq = (k.procs r).sigq

theorem Delivered.decoded (h : Delivered r es k) :
    (sent r es).map content = ((sent r es).map word).map decode := by
  rw [List.map_map]
  exact List.map_congr_left fun s hs => (decode_word (h.positive s hs)).symm

theorem Delivered.inOrder (hw : k.WellFormed) (h : Delivered r es k) : InOrder r es k where
  order := by
    rw [h.decoded]
    exact h.order.map decode
  empty k' hC hc hS := by
    have hs := hS.1.runs rfl
    have hl : k.Live r := hc ▸ hw.running hs
    have h0 : (psignal_read k).1 = 0 := (Prod.mk.inj (Except.ok.inj hS.2)).1
    have hh := hC.not_handler hl
    have hm := mail_read hw hh h.unhandled hs
    rw [h0] at hm
    rw [h.decoded, ((h.boxed hl hh).mail hl hC hm).2 rfl hc rfl]
  error a o k' hl hC hS hto hnone := by
    have hE := hS.effect hw
    have hu := hC.sole hl
    have hb := h.boxed hl (hC.not_handler hl)
    cases hE with
    | quiet hq => rw [hq.procs]
    | @queued _ _ _ _ _ p hsend hp _ hcall =>
      obtain rfl := (sends_to_iff hsend hp hu).1 hto
      have hdest := by simpa [sends_to, hsend] using hto
      rw [accepted_of_success hsend hcall hl hdest] at hnone
      cases hnone
    | handled hsend hp hcb =>
      obtain rfl := (sends_to_iff hsend hp hu).1 hto
      exact absurd hb.callback hcb
    | exited ha => cases a <;> first | cases hto | cases ha
    | read | hook | spawned | timer => cases hto

end Step

/-- **The signals of any process are delivered in order**, each once, in every run that keeps to
`Mailbox`. -/
theorem delivered_in_order {r : ℕ} {k₀ k : Kernel} {es : List Entry} (h₀ : Started k₀)
    (h : Lib.Run Logged (fun k e => Mailbox r k e.2) k₀ es k) : InOrder r es k := by
  obtain ⟨hw₀, hb⟩ := h₀.booted
  obtain ⟨hw, hd⟩ := h.history (I := fun es k => k.WellFormed ∧ Delivered r es k) ⟨hw₀, hb.delivered⟩
    fun {es t u e} hI hC hS => by
      obtain ⟨rfl, hS⟩ := hS
      exact ⟨hS.wellFormed hI.1, hI.2.effect hI.1 hC (hS.effect hI.1)⟩
  exact hd.inOrder hw

/-- A process is spawned and sent two signals, the second of which is refused, and reads. -/
theorem delivered_in_order_spawned : ∃ r k₀ es k, Started k₀ ∧
    Lib.Run Logged (fun k e => Mailbox r k e.2) k₀ es k ∧ k.Live r ∧ k.current_task = r ∧ InOrder r es k := by
  obtain ⟨es, k, ⟨k₀, h₀, h⟩, hn⟩ := traces_true (Mailbox second_descriptor)
    (fun k => decide (k.Live second_descriptor ∧ k.current_task = second_descriptor))
    [.initrd_spawn [65] 0 1, .psignal_send 2 7, .psignal_send 2 8, .timer quietTick, .psignal_read]
    (by decide +kernel)
  obtain ⟨hl, hc⟩ := of_decide_eq_true hn
  obtain ⟨fs, hr, -⟩ := logged h
  exact ⟨_, k₀, fs, k, h₀, hr, hl, hc, delivered_in_order h₀ hr⟩

end Iridium
