import Mathlib.Logic.Function.Basic
import Iridium.Common.Errno
import Iridium.Lib.Traced

/-!
# Copies

`memcpy`, of `common/string.c`: one byte after another, whatever lies at the two addresses. Behind the bytes that
are read, what is written is what was there (`copy_bytes_inside`).
-/

namespace Iridium

open Lib

/-- `n` bytes are copied, from the first one on. -/
def copy_bytes (mem : ℕ → UInt8) (dst src : ℕ) : ℕ → ℕ → UInt8
  | 0 => mem
  | n + 1 => Function.update (copy_bytes mem dst src n) (dst + n) (copy_bytes mem dst src n (src + n))

/-- What a copy does to a byte of memory. -/
inductive Access where
  | read (a : ℕ)
  | write (a : ℕ)
  deriving DecidableEq

/-- `memcpy`: one byte after another, also to `NULL`. -/
def memcpy (mem : ℕ → UInt8) (dst src : ℕ) : ℕ → Traced Access Halt (ℕ → UInt8)
  | 0 => pure mem
  | i + 1 => do
    let mem ← memcpy mem dst src i
    Traced.tell (.read (src + i))
    Traced.tell (.write (dst + i))
    return Function.update mem (dst + i) (mem (src + i))

section Memcpy

variable {mem : ℕ → UInt8} {dst src n a : ℕ}

theorem memcpy_result : (memcpy mem dst src n).result = .ok (copy_bytes mem dst src n) := by
  induction n with
  | zero => rfl
  | succ n ih =>
    rw [memcpy, Traced.result_bind, ih]
    rfl

theorem memcpy_deeds :
    (memcpy mem dst src n).deeds = (List.range n).flatMap fun i => [.read (src + i), .write (dst + i)] := by
  induction n with
  | zero => rfl
  | succ n ih =>
    rw [memcpy, Traced.deeds_bind_ok memcpy_result, ih, List.range_succ, List.flatMap_append]
    rfl

theorem memcpy_reads : .read a ∈ (memcpy mem dst src n).deeds ↔ src ≤ a ∧ a < src + n := by
  simp only [memcpy_deeds, List.mem_flatMap, List.mem_range, List.mem_cons, Access.read.injEq, reduceCtorEq,
    List.not_mem_nil, or_false]
  constructor
  · rintro ⟨i, hi, rfl⟩
    omega
  · rintro ⟨h₁, h₂⟩
    exact ⟨a - src, by omega, by omega⟩

/-- A copy changes the bytes it writes. -/
theorem copy_bytes_outside (h : a < dst ∨ dst + n ≤ a) : copy_bytes mem dst src n a = mem a := by
  induction n with
  | zero => rfl
  | succ n ih =>
    rw [copy_bytes, Function.update_of_ne (by omega)]
    exact ih (by omega)

/-- **A copy to what lies behind**: the bytes are those there were. -/
theorem copy_bytes_inside {i : ℕ} (hd : src + n ≤ dst) (hi : i < n) :
    copy_bytes mem dst src n (dst + i) = mem (src + i) := by
  induction n with
  | zero => omega
  | succ n ih =>
    rw [copy_bytes]
    by_cases hlast : i = n
    · rw [hlast, Function.update_self]
      exact copy_bytes_outside (.inl (by omega))
    · rw [Function.update_of_ne (by omega)]
      exact ih (by omega) (by omega)

end Memcpy

end Iridium
