import Iridium.Intr.Idt
import Mathlib.Data.Fin.VecNotation
import Mathlib.Data.Fintype.Basic
import Mathlib.Tactic.FinCases

/-!
# The exceptions

`asm/intr/exceptions.asm`, and the table of it in `intr/intr.c`. An exception pushes where it happened, and some of them
an error code on top. Each vector has a piece of assembly that takes this from the stack for `handle_exception`, or
prints the vector and halts the machine. Three vectors have the piece of another; and a piece that expects an error code
finds none when it is invoked by an `int` instruction, which is what the gates let ring 3 do.

So `handle_exception` is told what happened, and where, only as `exceptions_told_iff` says; and ring 3 may halt the
machine.
-/

namespace Iridium

/-! ### The code -/

/-- The registers that a piece uses, and the stack, its top first. -/
structure StubState where
  rdi : UInt64
  rsi : UInt64
  rdx : UInt64
  stack : List UInt64

/-- How a piece ends. -/
inductive StubEnd where
  /-- `handle_exception(vector, rip, errcode)`. -/
  | handle_exception (vector : UInt8) (rip errcode : UInt64)
  /-- `VECTOR FIRED: %x` is printed, and `hlt` follows. -/
  | halt (vector : UInt8)
  deriving DecidableEq

/-- `pop rsi` and `pop rdx`. -/
def pop_rsi (s : StubState) : StubState := { s with rsi := s.stack.headD 0, stack := s.stack.tail }
def pop_rdx (s : StubState) : StubState := { s with rdx := s.stack.headD 0, stack := s.stack.tail }

/-- `xor rdx, rdx`. -/
def xor_rdx (s : StubState) : StubState := { s with rdx := 0 }

/-- The macro `program_panic`. -/
def program_panic (vector : UInt64) (s : StubState) : StubEnd :=
  let s := pop_rsi { s with rdi := vector }
  .handle_exception s.rdi.toUInt8 s.rsi s.rdx

/-- The macro `kpanic`. -/
def kpanic (vector : UInt64) (_ : StubState) : StubEnd := .halt vector.toUInt8

/-- A piece for an exception without an error code, and one for an exception with one. -/
def uncoded (vector : UInt64) (s : StubState) : StubEnd := program_panic vector (xor_rdx s)
def coded (vector : UInt64) (s : StubState) : StubEnd := program_panic vector (pop_rdx s)

def divide_error := uncoded 0x0
def debug_exception := uncoded 0x1
def overflow := kpanic 0x4
def bound_range_exceeded := uncoded 0x5
def invalid_opcode := uncoded 0x6
def no_mathcoprocessor := kpanic 0x7
def double_fault := kpanic 0x8
def invalid_tss := coded 0xA
def segment_not_present := kpanic 0xB
def stack_segment_fault := kpanic 0xC
def general_protection_fault := coded 0xD
def page_fault := coded 0xE

/-- `exceptions`. -/
def exceptions : Fin 15 → StubState → StubEnd :=
  ![divide_error, debug_exception, general_protection_fault, general_protection_fault, overflow, bound_range_exceeded,
    invalid_opcode, no_mathcoprocessor, double_fault, general_protection_fault, invalid_tss, segment_not_present,
    stack_segment_fault, general_protection_fault, page_fault]

/-! ### The processor -/

/-- Where the processor was. -/
structure TrapFrame where
  rip : UInt64
  cs : UInt64
  rflags : UInt64
  rsp : UInt64
  ss : UInt64
  /-- No code is run under the null selector. -/
  cs_ne : cs ≠ 0

/-- What invokes a handler: an exception, with its error code if it has one, or an `int` instruction. -/
inductive Invoked where
  | exception (errcode : UInt64)
  | int_n
  deriving DecidableEq

/-- The exceptions with an error code. -/
def has_errcode (vector : Fin 15) : Bool := vector == 8 || 10 ≤ vector

/-- The error code that is pushed. -/
def Invoked.errcode : Invoked → Fin 15 → Option UInt64
  | exception errcode, vector => if has_errcode vector then some errcode else none
  | int_n, _ => none

/-- What lies on the stack when the handler begins. -/
def Invoked.stack (i : Invoked) (vector : Fin 15) (f : TrapFrame) (below : List UInt64) : List UInt64 :=
  (i.errcode vector).toList ++ f.rip :: f.cs :: f.rflags :: f.rsp :: f.ss :: below

/-- How the handler of a vector ends. -/
def Invoked.ends (i : Invoked) (vector : Fin 15) (f : TrapFrame) (s : StubState) : StubEnd :=
  exceptions vector { s with stack := i.stack vector f s.stack }

/-- **`handle_exception` is told** which exception it was, where it happened, and the error code, or 0. -/
def Invoked.Told (i : Invoked) (vector : Fin 15) (f : TrapFrame) (s : StubState) : Prop :=
  i.ends vector f s = .handle_exception (UInt8.ofNat vector) f.rip ((i.errcode vector).getD 0)

/-- The vectors whose piece halts the machine. -/
def halting : List (Fin 15) := [4, 7, 8, 0xB, 0xC]

/-- The vectors that have the piece of another. -/
def misrouted : List (Fin 15) := [2, 3, 9]

section Exceptions

variable {v : Fin 15} {i : Invoked} {f : TrapFrame} {s : StubState} {n : UInt64}

/-- A piece without an error code takes the top of the stack for the place. -/
theorem uncoded_eq : uncoded n s = .handle_exception n.toUInt8 (s.stack.headD 0) 0 := rfl

/-- One with an error code takes the word below. -/
theorem coded_eq : coded n s = .handle_exception n.toUInt8 (s.stack.tail.headD 0) (s.stack.headD 0) := rfl

theorem vector_byte (v : Fin 15) : (UInt64.ofNat v).toUInt8 = UInt8.ofNat v := by
  have := v.isLt
  apply UInt8.toNat_inj.1
  rw [UInt64.toNat_toUInt8, UInt64.toNat_ofNat_of_lt' (show _ < 2 ^ 64 by omega), UInt8.toNat_ofNat']

/-- A piece without an error code is right for an exception without one, however it is invoked. -/
theorem uncoded_told (hv : exceptions v = uncoded (UInt64.ofNat v)) (hc : has_errcode v = false) : i.Told v f s := by
  have hnone : i.errcode v = none := by
    cases i with
    | exception errcode => exact if_neg (by rw [hc]; nofun)
    | int_n => rfl
  rw [Invoked.Told, Invoked.ends, hv, uncoded_eq, Invoked.stack, hnone, vector_byte]
  rfl

/-- One with an error code is right for an exception with one, unless an `int` invokes it. -/
theorem coded_told_iff (hv : exceptions v = coded (UInt64.ofNat v)) (hc : has_errcode v = true) :
    i.Told v f s ↔ i ≠ .int_n := by
  rw [Invoked.Told, Invoked.ends, hv, coded_eq, Invoked.stack, vector_byte]
  cases i with
  | exception errcode =>
    rw [Invoked.errcode, if_pos hc]
    exact iff_of_true rfl nofun
  | int_n =>
    -- the place is taken for the error code, and the selector for the place
    refine iff_of_false (fun he => ?_) (fun h => h rfl)
    obtain ⟨-, hrip, herr⟩ := StubEnd.handle_exception.inj he
    exact f.cs_ne (hrip.trans herr)

/-- A piece for another vector is wrong. -/
theorem not_told {m : UInt64} (hv : exceptions v = coded m) (hm : m.toUInt8 ≠ UInt8.ofNat v) : ¬i.Told v f s := by
  rw [Invoked.Told, Invoked.ends, hv, coded_eq]
  exact fun he => hm (StubEnd.handle_exception.inj he).1

theorem halts (hv : exceptions v = kpanic n) : i.ends v f s = .halt n.toUInt8 := by
  rw [Invoked.ends, hv]
  rfl

/-- **The five kinds of vectors.** -/
theorem kinds (v : Fin 15) : (v ∈ halting ∧ exceptions v = kpanic (UInt64.ofNat v)) ∨
    (v ∈ misrouted ∧ exceptions v = coded 0xD ∧ (0xD : UInt64).toUInt8 ≠ UInt8.ofNat v) ∨
      (v ∉ halting ∧ v ∉ misrouted ∧ ((exceptions v = uncoded (UInt64.ofNat v) ∧ has_errcode v = false) ∨
        (exceptions v = coded (UInt64.ofNat v) ∧ has_errcode v = true))) := by
  fin_cases v
  all_goals
    first
    | exact .inl ⟨by decide, rfl⟩
    | exact .inr (.inl ⟨by decide, rfl, by decide⟩)
    | exact .inr (.inr ⟨by decide, by decide, .inl ⟨rfl, rfl⟩⟩)
    | exact .inr (.inr ⟨by decide, by decide, .inr ⟨rfl, rfl⟩⟩)

end Exceptions

/-- **For every exception vector**, wherever the processor was and whatever is on the stack: `handle_exception` is told
what happened if and only if the vector neither halts the machine nor has the piece of another, and no `int` instruction
takes the place of an exception with an error code. -/
theorem exceptions_told_iff (v : Fin 15) (i : Invoked) (f : TrapFrame) (s : StubState) :
    i.Told v f s ↔ v ∉ halting ∧ v ∉ misrouted ∧ (i = .int_n → has_errcode v = false) := by
  rcases kinds v with ⟨hv, he⟩ | ⟨hv, he, hne⟩ | ⟨hh, hm, ⟨he, hc⟩ | ⟨he, hc⟩⟩
  · refine iff_of_false (fun h => ?_) fun h => h.1 hv
    rw [Invoked.Told, halts he] at h
    cases h
  · exact iff_of_false (not_told he hne) fun h => h.2.1 hv
  · exact iff_of_true (uncoded_told he hc) ⟨hh, hm, fun _ => hc⟩
  · rw [coded_told_iff he hc]
    exact ⟨fun h => ⟨hh, hm, fun hi => absurd hi h⟩, fun h hi => absurd ((h.2.2 hi).symm.trans hc) nofun⟩

/-- **Ring 3 may halt the machine**: the gate of every exception vector lets it in, and leads to the handler; an `int`
instruction halts the machine if and only if the vector is one of five. -/
theorem ring3_halts_iff (hs : Handlers) (idt : Idt) (v : Fin 15) (f : TrapFrame) (s : StubState) :
    let gate := Gate.decode (init_irqs_gates hs (intr_init hs idt) (UInt8.ofNat v)).bits
    gate.Open ∧ gate.offset = (hs.exceptions v).toBitVec ∧
      ((∃ n, Invoked.int_n.ends v f s = .halt n) ↔ v ∈ halting) := by
  have hi : installed (boot_gates hs) (UInt8.ofNat v) = some ⟨UInt8.ofNat v, hs.exceptions v, TRAP_GATE_FLAGS⟩ := by
    fin_cases v <;> rfl
  have hgate := (decode_install_gates idt (boot_gates hs) (UInt8.ofNat v)).2 _ hi
  rw [boot_eq]
  refine ⟨open_of_installed hi, by rw [hgate]; rfl, ?_⟩
  rcases kinds v with ⟨hv, he⟩ | ⟨hv, he, -⟩ | ⟨hh, -, ⟨he, -⟩ | ⟨he, -⟩⟩
  · exact iff_of_true ⟨_, halts he⟩ hv
  · refine iff_of_false ?_ ((by decide : ∀ v ∈ misrouted, v ∉ halting) v hv)
    rintro ⟨n, hn⟩
    rw [Invoked.ends, he] at hn
    cases hn
  · refine iff_of_false ?_ hh
    rintro ⟨n, hn⟩
    rw [Invoked.ends, he] at hn
    cases hn
  · refine iff_of_false ?_ hh
    rintro ⟨n, hn⟩
    rw [Invoked.ends, he] at hn
    cases hn

end Iridium
