import Iridium.Proc.Delivery
import Iridium.Proc.Display

/-!
# The display daemon

`programs/sys/gfxd`, and `libgfx_clearscreen`, by which other programs speak to it. The daemon
claims the display and polls its signals. What comes from process 1 with a zero in the low byte is
a request to clear the screen, with the colour in the other three bytes; the daemon makes it a burst
of two words to the screen service. (The makefile of the programs leaves the daemon out, and its
calls of `sysreq` have a third argument, `NULL`, that the function does not.)

The kernel is run together with the place that the daemon has reached in `main` (`Serves`): whenever
its process does something, it is the next call there. A program that is interrupted is taken to go on
with its own registers, which `switch_task` does not see to.
-/

namespace Iridium

/-! ### The programs -/

/-- `GFXD_PID`. -/
def GFXD_PID : PID_T := 2

/-- `GFXDSIG_CLEAR_SCREEN`. -/
def GFXDSIG_CLEAR_SCREEN : UInt8 := 0

/-- `UAPI_SCREEN_SERVICE`. -/
def UAPI_SCREEN_SERVICE : UInt32 := 1

/-- `libgfx_clearscreen`: the system call that it makes. -/
def libgfx_clearscreen (color : UInt32) : Action := .psignal_send GFXD_PID (color <<< 8)

/-- Where `main` of the daemon is: before the call of this name, or before the first or the
second call of `sysreq` for this signal. -/
inductive Gfxd where
  | claimdrv
  | psignal_fetch
  | sysreq_clear (ipcmd : UInt64)
  | sysreq_color (ipcmd : UInt64)
  deriving DecidableEq

namespace Gfxd

/-- The next call, with the word that the output of `sysreq` is initialised to by nobody. -/
def call (uninit : UInt64) : Gfxd → Action
  | claimdrv => .drv_claim DRIVERTYPE_DISPLAY
  | psignal_fetch => .psignal_read
  | sysreq_clear _ => .sysreq UAPI_SCREEN_SERVICE 0x0 uninit
  | sysreq_color ipcmd => .sysreq UAPI_SCREEN_SERVICE (PSIGNAL_EXTRACT_SIGPAYLOAD ipcmd >>> 8) uninit

/-- Where `main` is after the answer. -/
def next (answer : UInt64) : Gfxd → Gfxd
  | claimdrv => psignal_fetch
  | psignal_fetch =>
    if answer ≠ 0 ∧ PSIGNAL_EXTRACT_SOURCE answer = 1 then
      let cmd := (PSIGNAL_EXTRACT_SIGPAYLOAD answer &&& 0xFF).toUInt8
      if cmd = GFXDSIG_CLEAR_SCREEN then sysreq_clear answer else psignal_fetch
    else psignal_fetch
  | sysreq_clear ipcmd => sysreq_color ipcmd
  | sysreq_color _ => psignal_fetch

end Gfxd

/-- **The kernel and the daemon**, which the process at `d` runs. -/
def Serves (d : ℕ) (s : Kernel × Gfxd) (e : Entry) (s' : Kernel × Gfxd) : Prop :=
  Logged s.1 e s'.1 ∧
    if s.1.current_task = d ∧ e.2.1.isInterrupt = false then
      (∃ uninit, e.2.1 = s.2.call uninit) ∧ s'.2 = s.2.next e.2.2
    else s'.2 = s.2

/-- **What the daemon relies on**: its process runs `main` and not a callback, it owns the display
from its claim on, and no other process in the queue has the PID of the first one. -/
structure Relies (d : ℕ) (s : Kernel × Gfxd) : Prop where
  not_handler : s.1.Live d → (s.1.procs d).isHandler = false
  owns : s.1.current_task = d → s.2 ≠ .claimdrv → Masters s.1 d DRIVERTYPE_DISPLAY
  init : ∀ p, s.1.Live p → (s.1.procs p).pid = 1 → p = s.1.queue_base

instance (d : ℕ) (s : Kernel × Gfxd) : Decidable (Relies d s) :=
  decidable_of_iff
    ((s.1.Live d → (s.1.procs d).isHandler = false) ∧
      (s.1.current_task = d → s.2 ≠ .claimdrv → Masters s.1 d DRIVERTYPE_DISPLAY) ∧
      ∀ p ∈ s.1.queue, (s.1.procs p).pid = 1 → p = s.1.queue_base)
    ⟨fun h => ⟨h.1, h.2.1, h.2.2⟩, fun h => ⟨h.not_handler, h.owns, h.init⟩⟩

/-! ### What is asked for and what is drawn -/

/-- The payload of the signal that an action puts into the queue of the process at `r`, if it does:
that process is the one found, and the call returns `EXIT_SUCCESS`. -/
def posted (r : ℕ) (e : Entry) : Option UInt32 :=
  match e.2.1.sends e.1 with
  | none => none
  | some (k, dest, dword) =>
    if (e.1.queue.find? fun p => (e.1.procs p).pid == dest) = some r then
      match psignal_send k dest dword with
      | .ok (errno, _) => if errno = EXIT_SUCCESS then some dword else none
      | .error _ => none
    else none

/-- What an action asks the daemon for: a clear screen, when it puts a signal into the queue in the
name of process 1, with the command in the low byte. -/
def asks (d : ℕ) (e : Entry) : List LfbCall :=
  match posted d e with
  | some dword =>
    if signal_owner e.1 = e.1.queue_base ∧ dword &&& 0xFF = 0 then [.lfb_clear_screen (dword >>> 8)] else []
  | none => []

/-- What an action of the daemon draws. -/
def draws (d : ℕ) (e : Entry) : List LfbCall := if e.1.current_task = d then service_calls e else []

/-- The word that an action of the daemon says to the screen service. -/
def daemon_word (d : ℕ) (e : Entry) : Option UInt64 :=
  match e.2.1 with
  | .sysreq service_num req _ => if service_num = UAPI_SCREEN_SERVICE ∧ e.1.current_task = d then some req else none
  | _ => none

/-- What is in the daemon's hands. -/
def Gfxd.pending : Gfxd → List LfbCall
  | sysreq_clear ipcmd | sysreq_color ipcmd =>
    [.lfb_clear_screen (PSIGNAL_EXTRACT_SIGPAYLOAD ipcmd >>> 8).toUInt32]
  | _ => []

/-- What the service has of the burst. -/
def Gfxd.burst : Gfxd → List UInt64
  | sysreq_color _ => [SCREENUAPI_CLEARSCREEN]
  | _ => []

/-- What a word in the queue comes to when it is fetched. -/
def waiting (w : UInt64) : List LfbCall := (Gfxd.psignal_fetch.next (taken w)).pending

/-! ### Words -/

/-- Only the PID 1 is read as the source 1. -/
theorem extract_source_eq_one {pid : PID_T} {dword : UInt32}
    (h : PSIGNAL_EXTRACT_SOURCE (psignal_word pid dword) = 1) : pid = 1 := by
  unfold PSIGNAL_EXTRACT_SOURCE psignal_word at h
  apply Int16.toBitVec_inj.1
  apply BitVec.eq_of_getLsbD_eq
  intro i hi
  have hbit := congrArg (fun w => w.toBitVec.getLsbD i) h
  have hmask : (0xFFFF#64).getLsbD i = true := by
    rw [BitVec.getLsbD_ofNat, show (0xFFFF : ℕ) = 2 ^ 16 - 1 from rfl, Nat.testBit_two_pow_sub_one]
    simp
    omega
  have hone : (Int16.toBitVec 1).getLsbD i = decide (i = 0) := by simp
  have hext : (BitVec.signExtend 64 (Int16.toBitVec pid))[i] = (Int16.toBitVec pid)[i] := by
    simp [BitVec.getElem_signExtend, hi]
  rw [hone, BitVec.getLsbD_eq_getElem hi]
  simpa [hmask, hext, show ¬32 + i < 32 by omega, show 32 + i < 64 by omega] using hbit

/-- The command of a payload. -/
theorem cmd_eq (dword : UInt32) :
    (dword.toUInt64 &&& 0xFF).toUInt8 = GFXDSIG_CLEAR_SCREEN ↔ dword &&& 0xFF = 0 := by
  have hand : ∀ n : ℕ, n &&& 255 = n % 256 := fun n => Nat.and_two_pow_sub_one_eq_mod n 8
  unfold GFXDSIG_CLEAR_SCREEN
  rw [← UInt8.toNat_inj, ← UInt32.toNat_inj]
  simp [hand]

/-- The colour of a payload. -/
theorem color_eq (dword : UInt32) : (dword.toUInt64 >>> 8).toUInt32 = dword >>> 8 := by
  have hd := dword.toNat_lt
  rw [← UInt32.toNat_inj]
  simp [Nat.shiftRight_eq_div_pow]
  omega

/-- **A word in the queue** is a request when it comes from PID 1 with the command. -/
theorem waiting_word (pid : PID_T) (dword : UInt32) : waiting (psignal_word pid dword) =
    if pid = 1 ∧ dword &&& 0xFF = 0 then [.lfb_clear_screen (dword >>> 8)] else [] := by
  unfold waiting
  by_cases hp : pid = 1
  · subst hp
    have hpos : (0 : PID_T) < 1 := by decide
    have ht : taken (psignal_word 1 dword) = psignal_word 1 dword := if_pos (top_bits_untouched hpos dword)
    have hs : PSIGNAL_EXTRACT_SOURCE (psignal_word 1 dword) = 1 := extract_source hpos dword
    unfold Gfxd.next
    dsimp only
    rw [ht, if_pos ⟨psignal_word_ne_zero hpos dword, hs⟩, extract_payload hpos dword]
    by_cases hc : dword &&& 0xFF = 0
    · rw [if_pos ((cmd_eq dword).2 hc), if_pos ⟨rfl, hc⟩]
      show [LfbCall.lfb_clear_screen _] = _
      rw [extract_payload hpos dword, color_eq]
    · rw [if_neg (mt (cmd_eq dword).1 hc), if_neg fun h => hc h.2]
      rfl
  · have hs : ¬(taken (psignal_word pid dword) ≠ 0 ∧
        PSIGNAL_EXTRACT_SOURCE (taken (psignal_word pid dword)) = 1) := by
      unfold taken
      split
      · exact fun h => hp (extract_source_eq_one h.2)
      · exact fun h => h.1 rfl
    unfold Gfxd.next
    dsimp only
    rw [if_neg hs, if_neg fun h => hp h.1]
    rfl

/-- **`libgfx_clearscreen`** asks for the colour modulo `2 ^ 24`. -/
theorem libgfx_payload (color : UInt32) :
    (color <<< 8) &&& 0xFF = 0 ∧ (color <<< 8) >>> 8 = color % 0x1000000 := by
  have hc := color.toNat_lt
  have hand : ∀ n : ℕ, n &&& 255 = n % 256 := fun n => Nat.and_two_pow_sub_one_eq_mod n 8
  constructor
  · rw [← UInt32.toNat_inj]
    simp [hand, Nat.shiftLeft_eq]
  · rw [← UInt32.toNat_inj]
    simp [Nat.shiftRight_eq_div_pow, Nat.shiftLeft_eq]
    omega

end Iridium
