import Iridium.Intr.Syscall
import Iridium.Lib.Run
import Iridium.Sync.Mutex

/-!
# The arguments of a system call

`psignal_send` of libiridium. It keeps its arguments in static variables, of two and of four bytes, and loads the
registers for the kernel from there, eight bytes each. So whatever lies behind the variables gets into the registers,
and all processes of one address space, which a process and the handlers of its signals are, have the same variables.
A timer interrupt may come between any two instructions; a process that is interrupted is taken to go on with its own
registers, which `switch_task` does not see to.

The kernel looks at as many bytes of the registers as the arguments have; and `programs/sys/init` calls the function
between `mutex_acquire` and `mutex_release` only. That is enough: in every order of the instructions of any number of
processes, each call reaches the kernel with the arguments it was made with (`arguments_arrive`).
-/

namespace Iridium

/-! ### The code -/

/-- Where a process is: before the instruction of this name, in a call with these arguments. -/
inductive SendPlace where
  | outside
  | mutex_acquire (dest : PID_T) (payload : UInt32)
  /-- `_dest = dest`. -/
  | store_dest (dest : PID_T) (payload : UInt32)
  /-- `_payload = payload`. -/
  | store_payload (dest : PID_T) (payload : UInt32)
  /-- `mov _dest, %rbx`. -/
  | load_rbx (dest : PID_T) (payload : UInt32)
  /-- `mov _payload, %rcx`. -/
  | load_rcx (dest : PID_T) (payload : UInt32) (rbx : UInt64)
  | int_0x80 (dest : PID_T) (payload : UInt32) (rbx rcx : UInt64)
  | mutex_release
  deriving DecidableEq

/-- The mutex, the static variables, and where the processes are. -/
structure SendUse (T : Type*) where
  lock : MUTEX_T
  dest : PID_T
  payload : UInt32
  place : T → SendPlace

/-- What a process does. -/
inductive SendEvent (T : Type*) where
  /-- It is about to make a call. -/
  | call (t : T) (dest : PID_T) (payload : UInt32)
  /-- The next instruction; a load finds this word. -/
  | instruction (t : T) (loaded : UInt64)
  /-- The call reaches the kernel, with these registers. -/
  | trap (t : T) (dest : PID_T) (payload : UInt32) (rbx rcx : UInt64)

variable {T : Type*} [DecidableEq T]

/-- A process goes on. -/
def SendUse.goto (s : SendUse T) (t : T) (p : SendPlace) : SendUse T := { s with place := Function.update s.place t p }

/-- One instruction of a process: what the memory must be for it, and what there is after it. The low bytes of a word
that is loaded are the variable, and the others are whatever lies behind it. -/
def SendUse.instruction (s : SendUse T) (t : T) (loaded : UInt64) (s' : SendUse T) : Prop :=
  match s.place t with
  | .mutex_acquire dest payload =>
    s' = { s with lock := (mutex_acquire s.lock).2 }.goto t
      (if (mutex_acquire s.lock).1 then .store_dest dest payload else .mutex_acquire dest payload)
  | .store_dest dest payload => s' = { s with dest }.goto t (.store_payload dest payload)
  | .store_payload dest payload => s' = { s with payload }.goto t (.load_rbx dest payload)
  | .load_rbx dest payload => loaded.toUInt16.toInt16 = s.dest ∧ s' = s.goto t (.load_rcx dest payload loaded)
  | .load_rcx dest payload rbx => loaded.toUInt32 = s.payload ∧ s' = s.goto t (.int_0x80 dest payload rbx loaded)
  | .mutex_release => s' = { s with lock := mutex_release s.lock }.goto t .outside
  | .outside | .int_0x80 _ _ _ _ => False

/-- **A step.** -/
def SendStep (s : SendUse T) : SendEvent T → SendUse T → Prop
  | .call t dest payload, s' => s.place t = .outside ∧ s' = s.goto t (.mutex_acquire dest payload)
  | .instruction t loaded, s' => s.instruction t loaded s'
  | .trap t dest payload rbx rcx, s' =>
    s.place t = .int_0x80 dest payload rbx rcx ∧ s' = s.goto t .mutex_release

/-- Nobody has made a call; the variables are whatever they are. -/
def SendUse.start (T : Type*) (dest : PID_T) (payload : UInt32) : SendUse T :=
  ⟨MUTEX_UNLOCKED, dest, payload, fun _ => .outside⟩

/-- What `syscall_regs` holds in such a call. -/
def send_call (rbx rcx : UInt64) (c : Call) : Call :=
  { c with regs := { c.regs with rax := 4, rbx := rbx, rcx := rcx } }

/-- **The arguments arrive**: with these registers the kernel does its `psignal_send` with the arguments, and answers
with the error of it. -/
def Arrive (dest : PID_T) (payload : UInt32) (rbx rcx : UInt64) : Prop :=
  ∀ (k : Kernel) (c : Call), dispatch_syscall k (send_call rbx rcx c) = (do
    let (e, k) ← psignal_send k dest payload
    return (k, { (send_call rbx rcx c).regs with rax := ofInt16 e }))

/-- The call that a process makes. -/
def SendEvent.calls (t : T) : SendEvent T → Option (PID_T × UInt32)
  | call u dest payload => if u = t then some (dest, payload) else none
  | _ => none

/-- The call of a process that reaches the kernel. -/
def SendEvent.traps (t : T) : SendEvent T → Option (PID_T × UInt32)
  | trap u dest payload _ _ => if u = t then some (dest, payload) else none
  | _ => none

/-- The call that a process is in, before the kernel is. -/
def SendPlace.pending : SendPlace → Option (PID_T × UInt32)
  | outside | mutex_release => none
  | mutex_acquire dest payload | store_dest dest payload | store_payload dest payload | load_rbx dest payload
  | load_rcx dest payload _ | int_0x80 dest payload _ _ => some (dest, payload)

/-- **Each call of a process reaches the kernel**, in order and once, and with its arguments. -/
structure SendUse.Sent (s : SendUse T) (es : List (SendEvent T)) : Prop where
  arrive : ∀ t dest payload rbx rcx, .trap t dest payload rbx rcx ∈ es → Arrive dest payload rbx rcx
  each : ∀ t, es.filterMap (·.calls t) = es.filterMap (·.traps t) ++ (s.place t).pending.toList

/-! ### One step -/

/-- The process holds the mutex. -/
def SendPlace.inside : SendPlace → Bool
  | outside | mutex_acquire _ _ => false
  | _ => true

/-- What is stored and loaded so far is what it should be. -/
def SendUse.Right (s : SendUse T) : SendPlace → Prop
  | .store_payload dest _ => s.dest = dest
  | .load_rbx dest payload => s.dest = dest ∧ s.payload = payload
  | .load_rcx dest payload rbx => rbx.toUInt16.toInt16 = dest ∧ s.payload = payload
  | .int_0x80 dest payload rbx rcx => rbx.toUInt16.toInt16 = dest ∧ rcx.toUInt32 = payload
  | _ => True

/-- **One process has the variables for itself.** -/
structure SendUse.Guarded (s : SendUse T) : Prop where
  behind : Lib.Behind (s.lock ≠ MUTEX_UNLOCKED) fun t => (s.place t).inside = true
  right : ∀ t, s.Right (s.place t)

theorem arrive_of {dest : PID_T} {payload : UInt32} {rbx rcx : UInt64} (hd : rbx.toUInt16.toInt16 = dest)
    (hp : rcx.toUInt32 = payload) : Arrive dest payload rbx rcx := by
  intro k c
  have hle : ¬(4 : UInt64).toInt64 ≥ Int64.ofNat SYSCALL_COUNT := by decide
  have hnonneg : ¬(4 : UInt64).toInt64 < 0 := by decide
  have hsys : syscall_table[(4 : UInt64).toNat]? = some sys_send_psignal := rfl
  simp only [dispatch_syscall, send_call, hle, hnonneg, if_false, hsys, sys_send_psignal, hd, hp]

section Step

variable {s s' : SendUse T} {t u : T} {e : SendEvent T} {p : SendPlace} {w : UInt64}

@[simp] theorem SendUse.goto_self (s : SendUse T) (t : T) (p : SendPlace) : (s.goto t p).place t = p :=
  Function.update_self ..

theorem SendUse.goto_of_ne (s : SendUse T) (p : SendPlace) (h : u ≠ t) : (s.goto t p).place u = s.place u :=
  Function.update_of_ne h ..

omit [DecidableEq T] in
/-- Who does not hold the mutex is in no need of the variables. -/
theorem right_of_outside (h : p.inside = false) : s.Right p := by
  cases p with
  | outside | mutex_acquire => trivial
  | _ => cases h

omit [DecidableEq T] in
/-- While one holds the mutex, the others do not. -/
theorem SendUse.Guarded.alone (h : s.Guarded) (ht : (s.place t).inside = true) (hu : u ≠ t) :
    (s.place u).inside = false := by
  by_contra hin
  exact hu (h.behind.one u t (by simpa using hin) ht)

/-- **The process that holds the mutex goes on**, and changes the variables as it likes. -/
theorem SendUse.Guarded.go (h : s.Guarded) (ht : (s.place t).inside = true) (hlock : s'.lock = s.lock)
    (hplace : s'.place = s.place) (hr : s'.Right p) : (s'.goto t p).Guarded := by
  refine ⟨?_, fun u => ?_⟩
  · show Lib.Behind (s'.lock ≠ MUTEX_UNLOCKED) _
    rw [hlock]
    refine h.behind.mono fun u hu => ?_
    by_cases he : u = t
    · rwa [he]
    · rwa [SendUse.goto_of_ne _ _ he, hplace] at hu
  · by_cases he : u = t
    · rw [he, SendUse.goto_self]
      exact hr
    · rw [SendUse.goto_of_ne _ _ he, hplace]
      exact right_of_outside (h.alone ht he)

/-- **A process without the mutex goes on**, and changes nothing but its place and, maybe, the byte. -/
theorem SendUse.Guarded.wait (h : s.Guarded) (hp : p.inside = false)
    (hlock : s.lock ≠ MUTEX_UNLOCKED → s'.lock ≠ MUTEX_UNLOCKED) (hd : s'.dest = s.dest)
    (hpay : s'.payload = s.payload) (hplace : s'.place = s.place) : (s'.goto t p).Guarded := by
  have hstay : ∀ u, ((s'.goto t p).place u).inside = true → (s.place u).inside = true := by
    intro u hu
    by_cases he : u = t
    · rw [he, SendUse.goto_self, hp] at hu
      cases hu
    · rwa [SendUse.goto_of_ne _ _ he, hplace] at hu
  refine ⟨⟨fun u v hu hv => h.behind.one u v (hstay u hu) (hstay v hv), fun hf u hu => ?_⟩, fun u => ?_⟩
  · exact hf (hlock (h.behind.held_of (hstay u hu)))
  · by_cases he : u = t
    · rw [he, SendUse.goto_self]
      exact right_of_outside hp
    · rw [SendUse.goto_of_ne _ _ he, hplace]
      have hu := h.right u
      revert hu
      cases s.place u <;> simp [SendUse.Right, SendUse.goto, hd, hpay]

/-- **A process gets the mutex**: nobody has it. -/
theorem SendUse.Guarded.acquire {dest : PID_T} {payload : UInt32} (h : s.Guarded) (hl : s.lock = MUTEX_UNLOCKED) :
    ({ s with lock := 1 }.goto t (.store_dest dest payload)).Guarded := by
  refine ⟨h.behind.acquire (t := t) (not_not.2 hl) (by decide : (1 : MUTEX_T) ≠ MUTEX_UNLOCKED) fun u hu => ?_,
    fun u => ?_⟩
  · by_cases he : u = t
    · exact .inl he
    · exact .inr (by rwa [SendUse.goto_of_ne _ _ he] at hu)
  · by_cases he : u = t
    · rw [he, SendUse.goto_self]
      trivial
    · rw [SendUse.goto_of_ne _ _ he]
      exact right_of_outside (by simpa using h.behind.free (not_not.2 hl) u)

/-- **The process that has the mutex gives it back.** -/
theorem SendUse.Guarded.release (h : s.Guarded) (ht : (s.place t).inside = true) :
    ({ s with lock := MUTEX_UNLOCKED }.goto t .outside).Guarded := by
  refine ⟨h.behind.release ht fun u hu => ?_, fun u => ?_⟩
  · by_cases he : u = t
    · rw [he, SendUse.goto_self] at hu
      cases hu
    · exact ⟨by rwa [SendUse.goto_of_ne _ _ he] at hu, he⟩
  · by_cases he : u = t
    · rw [he, SendUse.goto_self]
      trivial
    · rw [SendUse.goto_of_ne _ _ he]
      exact right_of_outside (h.alone ht he)

/-- One instruction. -/
theorem SendUse.Guarded.instruction (h : s.Guarded) (hs : s.instruction t w s') : s'.Guarded := by
  have hin := h.right t
  have hgo : ∀ {s' : SendUse T} {p}, (s.place t).inside = true → s'.lock = s.lock → s'.place = s.place → s'.Right p →
      (s'.goto t p).Guarded := h.go
  unfold SendUse.instruction at hs
  split at hs <;> rename_i hp <;> rw [hp] at hin hgo
  · split at hs
    next hl =>
      obtain rfl := hs
      exact h.acquire ((mutex_acquire_fst _).1 hl)
    next hl =>
      obtain rfl := hs
      exact h.wait rfl (fun _ => (by decide : (1 : MUTEX_T) ≠ MUTEX_UNLOCKED)) rfl rfl rfl
  · obtain rfl := hs
    exact hgo rfl rfl rfl rfl
  · obtain rfl := hs
    exact hgo rfl rfl rfl ⟨hin, rfl⟩
  · obtain ⟨hw, rfl⟩ := hs
    exact hgo rfl rfl rfl ⟨hw.trans hin.1, hin.2⟩
  · obtain ⟨hw, rfl⟩ := hs
    exact hgo rfl rfl rfl ⟨hin.1, hw.trans hin.2⟩
  · obtain rfl := hs
    exact h.release (by rw [hp]; rfl)
  · exact hs.elim
  · exact hs.elim

/-- **One step.** -/
theorem SendUse.Guarded.step (h : s.Guarded) (hs : SendStep s e s') : s'.Guarded := by
  cases e with
  | call t dest payload =>
    obtain ⟨-, rfl⟩ := hs
    exact h.wait rfl id rfl rfl rfl
  | instruction t w => exact h.instruction hs
  | trap t dest payload rbx rcx =>
    obtain ⟨hp, rfl⟩ := hs
    exact h.go (by rw [hp]; rfl) rfl rfl trivial

/-- An instruction moves its process only. -/
theorem instruction_place (hs : s.instruction t w s') (hu : u ≠ t) : s'.place u = s.place u := by
  unfold SendUse.instruction at hs
  split at hs
  all_goals first
    | exact hs.elim
    | obtain rfl := hs; exact SendUse.goto_of_ne _ _ hu
    | obtain ⟨-, rfl⟩ := hs; exact SendUse.goto_of_ne _ _ hu

/-- A process stays in its call until the call reaches the kernel. -/
theorem instruction_pending (hs : s.instruction t w s') : (s'.place t).pending = (s.place t).pending := by
  unfold SendUse.instruction at hs
  split at hs <;> rename_i hp <;> rw [hp]
  · obtain rfl := hs
    rw [SendUse.goto_self]
    split <;> rfl
  all_goals first
    | exact hs.elim
    | obtain rfl := hs; rw [SendUse.goto_self]; rfl
    | obtain ⟨-, rfl⟩ := hs; rw [SendUse.goto_self]; rfl

/-- **One step**, for each process. -/
theorem pending_step (t : T) (hs : SendStep s e s') :
    (s.place t).pending.toList ++ (e.calls t).toList = (e.traps t).toList ++ (s'.place t).pending.toList := by
  cases e with
  | call u dest payload =>
    obtain ⟨hp, rfl⟩ := hs
    by_cases he : u = t
    · subst he
      simp [hp, SendPlace.pending, SendEvent.calls, SendEvent.traps]
    · simp [SendUse.goto_of_ne _ _ (Ne.symm he), SendEvent.calls, SendEvent.traps, he]
  | trap u dest payload rbx rcx =>
    obtain ⟨hp, rfl⟩ := hs
    by_cases he : u = t
    · subst he
      simp [hp, SendPlace.pending, SendEvent.calls, SendEvent.traps]
    · simp [SendUse.goto_of_ne _ _ (Ne.symm he), SendEvent.calls, SendEvent.traps, he]
  | instruction u w =>
    have hpend : (s'.place t).pending = (s.place t).pending := by
      by_cases he : u = t
      · subst he
        exact instruction_pending hs
      · rw [instruction_place hs (Ne.symm he)]
    simp [hpend, SendEvent.calls, SendEvent.traps]

end Step

/-! ### Every run -/

/-- **In every run**, of any number of processes and in any order of their instructions, each call reaches the kernel
with its arguments, whatever lies behind the variables. -/
theorem arguments_arrive {dest : PID_T} {payload : UInt32} {es : List (SendEvent T)} {s : SendUse T}
    (h : Lib.Run SendStep (fun _ _ => True) (.start T dest payload) es s) : s.Sent es := by
  have hstart : (SendUse.start T dest payload).Guarded := ⟨.nobody nofun, fun _ => trivial⟩
  refine (h.history (I := fun es (s : SendUse T) => s.Guarded ∧ s.Sent es) ⟨hstart, nofun, fun _ => rfl⟩ ?_).2
  rintro es s s' e ⟨hg, hsent⟩ - hs
  refine ⟨hg.step hs, fun t dest payload rbx rcx ht => ?_, fun t => ?_⟩
  · rcases List.mem_append.1 ht with ht | ht
    · exact hsent.arrive t dest payload rbx rcx ht
    · obtain rfl := List.mem_singleton.1 ht
      have hright := hg.right t
      rw [hs.1] at hright
      exact arrive_of hright.1 hright.2
  · rw [Lib.filterMap_snoc, Lib.filterMap_snoc, hsent.each, List.append_assoc, pending_step t hs, List.append_assoc]

/-- A call with something behind both variables. -/
theorem arguments_arrive_one : ∃ s : SendUse Unit, s.place () = .mutex_release ∧
    s.Sent [.call () 2 6, .instruction () 0, .instruction () 0, .instruction () 0, .instruction () 0xBEEF0002,
      .instruction () 0xBEEF00000006, .trap () 2 6 0xBEEF0002 0xBEEF00000006] := by
  have h₁ : Lib.Run SendStep (fun _ _ => True) (.start Unit 7 7) [.call () 2 6] _ := .single trivial ⟨rfl, rfl⟩
  have h₂ := h₁.snoc (e := .instruction () 0) trivial (by exact rfl)
  have h₃ := h₂.snoc (e := .instruction () 0) trivial (by exact rfl)
  have h₄ := h₃.snoc (e := .instruction () 0) trivial (by exact rfl)
  have h₅ := h₄.snoc (e := .instruction () 0xBEEF0002) trivial (by exact ⟨by decide, rfl⟩)
  have h₆ := h₅.snoc (e := .instruction () 0xBEEF00000006) trivial (by exact ⟨by decide, rfl⟩)
  have h₇ := h₆.snoc (e := .trap () 2 6 0xBEEF0002 0xBEEF00000006) trivial (by exact ⟨rfl, rfl⟩)
  exact ⟨_, rfl, arguments_arrive h₇⟩

end Iridium
