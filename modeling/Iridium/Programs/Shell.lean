import Iridium.Drivers.Packet
import Iridium.Lib.Run
import Iridium.Lib.Traced

/-!
# The shell

`programs/sys/shell`: a line editor that is one callback. Each keystroke is a handler process of its own;
what was typed since the last Enter is in two static variables, the buffer and its index. There is room for
seven characters, and none of the commands has as many, so that a line that is too long is never taken for
one (`shell_exact`).
-/

namespace Iridium

open Lib

/-! ### The program -/

def KEY_ENTER : UInt32 := 28
def COMMAND_BUF_SIZE : UInt8 := 7

/-- `RGB2HEX(0, 150, 150)`. -/
def PROMPT_COLOR : UInt32 := 0x009696

/-- The bytes of a string. -/
def LIVE_ENVIRON_PROMPT : List UInt8 := "live@iridium~!> ".toUTF8.toList
def NOT_UNDERSTOOD : List UInt8 := "Sorry, I didn't understand your command!\n".toUTF8.toList

/-- The names of the commands: `fetch`, `h`, `reboot`. -/
def FETCH : List UInt8 := [0x66, 0x65, 0x74, 0x63, 0x68]
def H : List UInt8 := [0x68]
def REBOOT : List UInt8 := [0x72, 0x65, 0x62, 0x6F, 0x6F, 0x74]

/-- What the shell does: a write to its buffer, or a system call. -/
inductive ShellDeed where
  | store (i : ℕ)
  | con_out_u32 (str : List UInt8) (color : UInt32)
  | reboot
  deriving DecidableEq

/-- The static variables of the shell. -/
structure Shell where
  cmdbuf : ℕ → UInt8
  cmdbuf_idx : UInt8

/-- The loop of `bufcmp`. -/
def bufcmp_from (buf : ℕ → UInt8) : ℕ → List UInt8 → UInt8
  | _, [] => 0
  | i, c :: cs => if buf i ≠ c then 1 else bufcmp_from buf (i + 1) cs

/-- `bufcmp`, with the characters of `cmpstr`. -/
def bufcmp (buf : ℕ → UInt8) (cmpstr : List UInt8) (cmp_len : ℕ) : UInt8 :=
  if cmpstr.length ≠ cmp_len then 1 else bufcmp_from buf 0 cmpstr

/-- The picture of the command `fetch`. -/
def fetch : List UInt8 :=
  [0x5F, 0x5F, 0x5F, 0x5F, 0x5F, 0x5F, 0x5F, 0x5F, 0x0A, 0x5C, 0x20, 0x20, 0x7C, 0x7C, 0x20, 0x20, 0x2F, 0x0A,
    0x20, 0x5C, 0x20, 0x7C, 0x7C, 0x20, 0x2F, 0x0A, 0x20, 0x20, 0x5C, 0x7C, 0x7C, 0x2F, 0x0A, 0x20, 0x20, 0x20,
    0x5C, 0x2F]

/-- The built-in commands, as `psignal_callback` looks for them: whether there was one. -/
def run_builtin (s : Shell) : Lib.Traced ShellDeed Halt Bool :=
  if bufcmp s.cmdbuf FETCH s.cmdbuf_idx.toNat = 0 then do
    Lib.Traced.tell (.con_out_u32 fetch PROMPT_COLOR)
    Lib.Traced.tell (.con_out_u32 " Iridium OS (early stages)\n\n".toUTF8.toList PROMPT_COLOR)
    return true
  else if bufcmp s.cmdbuf H s.cmdbuf_idx.toNat = 0 then do
    Lib.Traced.tell (.con_out_u32 "Bogos binted?\n".toUTF8.toList PROMPT_COLOR)
    return true
  else if bufcmp s.cmdbuf REBOOT s.cmdbuf_idx.toNat = 0 then do
    Lib.Traced.tell .reboot
    Lib.Traced.lift (.error .stopped)
  else return false

/-- The message when there was none. -/
def complain (cmd_success : Bool) : Lib.Traced ShellDeed Halt Unit :=
  if cmd_success then pure () else Lib.Traced.tell (.con_out_u32 NOT_UNDERSTOOD PROMPT_COLOR)

/-- `psignal_callback`, with the packet that it fetches. -/
def psignal_callback (s : Shell) (keystroke_packet : UInt32) : Lib.Traced ShellDeed Halt Shell :=
  let keystroke := (KEYSTROKE_EXTRACT_CHARACTER keystroke_packet).toUInt8
  if KEYSTROKE_EXTRACT_SCANCODE keystroke_packet = KEY_ENTER then do
    Lib.Traced.tell (.con_out_u32 "\n".toUTF8.toList PROMPT_COLOR)
    let cmd_success ← run_builtin s
    complain cmd_success
    Lib.Traced.tell (.con_out_u32 LIVE_ENVIRON_PROMPT PROMPT_COLOR)
    return { s with cmdbuf_idx := 0 }
  else if s.cmdbuf_idx < COMMAND_BUF_SIZE then do
    Lib.Traced.tell (.store s.cmdbuf_idx.toNat)
    Lib.Traced.tell (.con_out_u32 ([keystroke].takeWhile (· ≠ 0)) PROMPT_COLOR)
    return { s with cmdbuf := Function.update s.cmdbuf s.cmdbuf_idx.toNat keystroke,
                    cmdbuf_idx := s.cmdbuf_idx + 1 }
  else pure s

/-- What `main` leaves. -/
def Shell.start : Shell := ⟨fun _ => 0, 0⟩

/-- One callback, up to its end. -/
def ShellStep (s : Shell) (keystroke_packet : UInt32) (s' : Shell) : Prop :=
  (psignal_callback s keystroke_packet).result = .ok s'

/-! ### What the shell should do -/

/-- The commands. -/
inductive Builtin where
  | fetch
  | h
  | reboot
  deriving DecidableEq

/-- What is typed for a command. -/
def Builtin.name : Builtin → List UInt8
  | fetch => FETCH
  | h => H
  | reboot => REBOOT

/-- What a command does. -/
def Builtin.effect : Builtin → List ShellDeed
  | fetch => [.con_out_u32 Iridium.fetch PROMPT_COLOR,
      .con_out_u32 " Iridium OS (early stages)\n\n".toUTF8.toList PROMPT_COLOR]
  | h => [.con_out_u32 "Bogos binted?\n".toUTF8.toList PROMPT_COLOR]
  | reboot => [.reboot]

/-- The line with one more packet. -/
def typed (l : List UInt8) (keystroke_packet : UInt32) : List UInt8 :=
  if KEYSTROKE_EXTRACT_SCANCODE keystroke_packet = KEY_ENTER then []
  else l ++ [(KEYSTROKE_EXTRACT_CHARACTER keystroke_packet).toUInt8]

/-- **The characters typed** since the last Enter, or since the start. -/
def line (packets : List UInt32) : List UInt8 := packets.foldl typed []

/-- **A line is answered**: a command runs when the line is its name, and the message is written when the
line is the name of none. -/
structure LineAnswered (l : List UInt8) (deeds : List ShellDeed) : Prop where
  runs : ∀ b : Builtin, (∀ d ∈ b.effect, d ∈ deeds) ↔ l = b.name
  message : .con_out_u32 NOT_UNDERSTOOD PROMPT_COLOR ∈ deeds ↔ ∀ b : Builtin, l ≠ b.name

/-- **The shell is right about the line**: its index is in its range, the next callback writes inside the
buffer, it answers the line if it is for an Enter, and it comes back unless the line is the command that
restarts the machine. -/
structure Shell.Exact (s : Shell) (l : List UInt8) : Prop where
  idx : s.cmdbuf_idx ≤ COMMAND_BUF_SIZE
  inside : ∀ keystroke_packet i, .store i ∈ (psignal_callback s keystroke_packet).deeds → i < COMMAND_BUF_SIZE.toNat
  enter : ∀ keystroke_packet, KEYSTROKE_EXTRACT_SCANCODE keystroke_packet = KEY_ENTER →
    LineAnswered l (psignal_callback s keystroke_packet).deeds
  comes_back : ∀ keystroke_packet, (∃ s', ShellStep s keystroke_packet s') ↔
    ¬(KEYSTROKE_EXTRACT_SCANCODE keystroke_packet = KEY_ENTER ∧ l = Builtin.reboot.name)

/-! ### The line in the buffer -/

/-- **The buffer holds the line**, as much of it as there is room for. -/
structure Shell.Holds (s : Shell) (l : List UInt8) : Prop where
  idx : s.cmdbuf_idx.toNat = min l.length COMMAND_BUF_SIZE.toNat
  chars : (List.range s.cmdbuf_idx.toNat).map s.cmdbuf = l.take COMMAND_BUF_SIZE.toNat

section Shell

variable {s s' : Shell} {l : List UInt8} {packet : UInt32}

theorem Builtin.name_length (b : Builtin) : b.name.length < COMMAND_BUF_SIZE.toNat := by
  cases b <;> decide

/-- `bufcmp` compares the characters in the buffer. -/
theorem bufcmp_eq_zero_iff {buf : ℕ → UInt8} {cs : List UInt8} {n : ℕ} :
    bufcmp buf cs n = 0 ↔ (List.range n).map buf = cs := by
  have hloop : ∀ (cs : List UInt8) (i : ℕ), bufcmp_from buf i cs = 0 ↔ (List.range' i cs.length).map buf = cs := by
    intro cs
    induction cs with
    | nil => exact fun i => iff_of_true rfl rfl
    | cons c cs ih =>
      intro i
      rw [bufcmp_from, List.length_cons, List.range'_succ, List.map_cons, List.cons.injEq, ← ih]
      split
      next h => exact iff_of_false (by decide) fun he => h he.1
      next h => exact (and_iff_right (not_not.1 h)).symm
  unfold bufcmp
  split
  next h =>
    refine iff_of_false (by decide) fun he => h ?_
    rw [← he, List.length_map, List.length_range]
  next h => rw [hloop, ← List.range_eq_range', not_not.1 h]

/-- **The comparison with a command** is that of the line with its name. -/
theorem Shell.Holds.bufcmp (h : s.Holds l) (b : Builtin) :
    Iridium.bufcmp s.cmdbuf b.name s.cmdbuf_idx.toNat = 0 ↔ l = b.name := by
  have hlt := b.name_length
  rw [bufcmp_eq_zero_iff, h.chars]
  constructor
  · intro he
    -- a line that does not fit has more characters than the name
    have hlen := congrArg List.length he
    rw [List.length_take] at hlen
    rwa [List.take_of_length_le (by omega)] at he
  · rintro rfl
    exact List.take_of_length_le (Nat.le_of_lt hlt)

theorem Shell.start_holds : Shell.start.Holds [] := ⟨rfl, rfl⟩

/-- The callback for an Enter, whose line is a command that comes back, the one that does not, or none. -/
inductive EnterCase (s : Shell) (l : List UInt8) (x : Lib.Traced ShellDeed Halt Shell) : Prop where
  | runs (b : Builtin) : b ≠ .reboot → l = b.name →
      x = ⟨.con_out_u32 "\n".toUTF8.toList PROMPT_COLOR ::
        (b.effect ++ [.con_out_u32 LIVE_ENVIRON_PROMPT PROMPT_COLOR]), .ok { s with cmdbuf_idx := 0 }⟩ → EnterCase s l x
  | reboots : l = Builtin.reboot.name →
      x = ⟨.con_out_u32 "\n".toUTF8.toList PROMPT_COLOR :: Builtin.reboot.effect, .error .stopped⟩ → EnterCase s l x
  | complains : (∀ b : Builtin, l ≠ b.name) →
      x = ⟨[.con_out_u32 "\n".toUTF8.toList PROMPT_COLOR, .con_out_u32 NOT_UNDERSTOOD PROMPT_COLOR,
        .con_out_u32 LIVE_ENVIRON_PROMPT PROMPT_COLOR], .ok { s with cmdbuf_idx := 0 }⟩ → EnterCase s l x

/-- **An Enter.** -/
theorem Shell.Holds.enter (h : s.Holds l) (he : KEYSTROKE_EXTRACT_SCANCODE packet = KEY_ENTER) :
    EnterCase s l (psignal_callback s packet) := by
  have hcallback : psignal_callback s packet = do
      Lib.Traced.tell (.con_out_u32 "\n".toUTF8.toList PROMPT_COLOR)
      let cmd_success ← run_builtin s
      complain cmd_success
      Lib.Traced.tell (.con_out_u32 LIVE_ENVIRON_PROMPT PROMPT_COLOR)
      return { s with cmdbuf_idx := 0 } := if_pos he
  have hfetch : Iridium.bufcmp s.cmdbuf FETCH s.cmdbuf_idx.toNat = 0 ↔ l = FETCH := h.bufcmp .fetch
  have hh : Iridium.bufcmp s.cmdbuf H s.cmdbuf_idx.toNat = 0 ↔ l = H := h.bufcmp .h
  have hreboot : Iridium.bufcmp s.cmdbuf REBOOT s.cmdbuf_idx.toNat = 0 ↔ l = REBOOT := h.bufcmp .reboot
  rw [hcallback, run_builtin]
  by_cases h₁ : l = FETCH
  · exact .runs .fetch (by decide) h₁ (by rw [if_pos (hfetch.2 h₁)]; rfl)
  rw [if_neg (mt hfetch.1 h₁)]
  by_cases h₂ : l = H
  · exact .runs .h (by decide) h₂ (by rw [if_pos (hh.2 h₂)]; rfl)
  rw [if_neg (mt hh.1 h₂)]
  by_cases h₃ : l = REBOOT
  · exact .reboots h₃ (by rw [if_pos (hreboot.2 h₃)]; rfl)
  rw [if_neg (mt hreboot.1 h₃)]
  refine .complains (fun b => ?_) rfl
  cases b with
  | fetch => exact h₁
  | h => exact h₂
  | reboot => exact h₃

/-- No command does what another does, or writes the message. -/
theorem EnterCase.answered {x : Lib.Traced ShellDeed Halt Shell} (h : EnterCase s l x) : LineAnswered l x.deeds := by
  cases h with
  | runs b hb hl hx =>
    rw [hl, hx]
    dsimp only
    refine ⟨fun b' => ?_, iff_of_false ?_ fun hall => hall b rfl⟩
    · cases b <;> cases b' <;> decide +kernel
    · cases b <;> decide +kernel
  | reboots hl hx =>
    rw [hl, hx]
    dsimp only
    refine ⟨fun b' => ?_, iff_of_false (by decide +kernel) fun hall => hall .reboot rfl⟩
    cases b' <;> decide +kernel
  | complains hl hx =>
    rw [hx]
    dsimp only
    refine ⟨fun b => iff_of_false ?_ (hl b), iff_of_true (by decide +kernel) hl⟩
    cases b <;> decide +kernel

/-- A character. -/
theorem Shell.Holds.character (h : s.Holds l) (he : KEYSTROKE_EXTRACT_SCANCODE packet ≠ KEY_ENTER) :
    ∃ s', ShellStep s packet s' ∧ s'.Holds (typed l packet) ∧
      ∀ i, .store i ∈ (psignal_callback s packet).deeds → i < COMMAND_BUF_SIZE.toNat := by
  have hsize : COMMAND_BUF_SIZE.toNat = 7 := rfl
  have hidx := h.idx
  have hchars := h.chars
  rw [hsize] at hidx hchars
  unfold ShellStep psignal_callback typed
  dsimp only
  rw [if_neg he, if_neg he]
  split
  next hlt =>
    have hlt := UInt8.lt_iff_toNat_lt.1 hlt
    have heq : s.cmdbuf_idx.toNat = l.length := by omega
    have hnext : (s.cmdbuf_idx + 1).toNat = l.length + 1 := by
      rw [UInt8.toNat_add, heq]
      show (l.length + 1) % 256 = _
      omega
    rw [List.take_of_length_le (by omega), heq] at hchars
    refine ⟨_, rfl, ⟨?_, ?_⟩, fun i hi => ?_⟩
    · rw [hnext, List.length_append, List.length_singleton]
      omega
    · dsimp only
      rw [hnext, List.range_succ, List.map_append, List.take_of_length_le (by simp; omega), heq]
      refine congrArg₂ (· ++ ·) ?_ ?_
      · -- the characters before are not written
        refine Eq.trans (List.map_congr_left fun i hi => ?_) hchars
        exact Function.update_of_ne (Nat.ne_of_lt (List.mem_range.1 hi)) ..
      · simp
    · obtain rfl : i = s.cmdbuf_idx.toNat := by simpa using hi
      omega
  next hlt =>
    have hlt := mt UInt8.lt_iff_toNat_lt.2 hlt
    refine ⟨s, rfl, ⟨?_, ?_⟩, fun i hi => by cases hi⟩
    · rw [List.length_append, List.length_singleton]
      omega
    · rw [hsize, hchars, List.take_append_of_le_length (by omega)]

/-- **One callback.** -/
theorem Shell.Holds.step (h : s.Holds l) (hs : ShellStep s packet s') : s'.Holds (typed l packet) := by
  by_cases he : KEYSTROKE_EXTRACT_SCANCODE packet = KEY_ENTER
  · rw [typed, if_pos he]
    unfold ShellStep at hs
    cases h.enter he with
    | runs b _ _ hx =>
      rw [hx] at hs
      obtain rfl := Except.ok.inj hs
      exact ⟨rfl, rfl⟩
    | reboots _ hx =>
      rw [hx] at hs
      cases hs
    | complains _ hx =>
      rw [hx] at hs
      obtain rfl := Except.ok.inj hs
      exact ⟨rfl, rfl⟩
  · obtain ⟨t, ht, hl, -⟩ := h.character he
    obtain rfl := Except.ok.inj (ht.symm.trans hs)
    exact hl

theorem Shell.Holds.exact (h : s.Holds l) : s.Exact l := by
  refine ⟨?_, fun packet i hi => ?_, fun packet he => (h.enter he).answered, fun packet => ?_⟩
  · rw [UInt8.le_iff_toNat_le, h.idx]
    exact Nat.min_le_right _ _
  · by_cases he : KEYSTROKE_EXTRACT_SCANCODE packet = KEY_ENTER
    · exfalso
      cases h.enter he with
      | runs b _ _ hx =>
        rw [hx] at hi
        cases b <;> simp [Builtin.effect] at hi
      | reboots _ hx => simp [hx, Builtin.effect] at hi
      | complains _ hx => simp [hx] at hi
    · obtain ⟨-, -, -, hin⟩ := h.character he
      exact hin i hi
  · by_cases he : KEYSTROKE_EXTRACT_SCANCODE packet = KEY_ENTER
    · unfold ShellStep
      cases h.enter he with
      | runs b hb hl hx =>
        rw [hx]
        refine iff_of_true ⟨_, rfl⟩ fun hr => hb ?_
        have hname : b.name = Builtin.reboot.name := hl.symm.trans hr.2
        cases b with
        | fetch => exact absurd hname (by decide)
        | h => exact absurd hname (by decide)
        | reboot => rfl
      | reboots hl hx =>
        rw [hx]
        exact iff_of_false (fun ⟨_, hs⟩ => by cases hs) fun hn => hn ⟨he, hl⟩
      | complains hl hx =>
        rw [hx]
        exact iff_of_true ⟨_, rfl⟩ fun hr => hl .reboot hr.2
    · obtain ⟨t, ht, -⟩ := h.character he
      exact iff_of_true ⟨t, ht⟩ fun hr => he hr.1

end Shell

/-- **After any keystrokes**, the shell is right about the characters typed since the last Enter. -/
theorem shell_exact {packets : List UInt32} {s : Shell}
    (h : Run ShellStep (fun _ _ => True) Shell.start packets s) : s.Exact (line packets) := by
  have hholds : s.Holds (line packets) := by
    refine h.history (I := fun packets s => s.Holds (line packets)) Shell.start_holds ?_
    intro packets s s' packet hs _ hstep
    rw [line, List.foldl_append]
    exact hs.step hstep
  exact hholds.exact

/-- The line `h`. -/
theorem shell_exact_h : ∃ s, Shell.Exact s (line [packet_of true 0x68 35]) :=
  ⟨_, shell_exact (Run.single trivial (s := Shell.start) rfl)⟩

end Iridium
