import Iridium.Lib.Run
import Iridium.Lib.Traced
import Iridium.Proc.Process

/-!
# The services of init

`_service_create`, of `programs/sys/init`: a service is spawned, and its record goes to the place in a static
array that is its PID, whatever that is. An error is a negative PID, and PIDs grow with every process there
ever was (`service_create_iff`). As long as all answers are free slots, every live service is found in its own
(`services_kept`).
-/

namespace Iridium

open Lib

/-- `struct Service`. Strings are addresses. -/
structure Service where
  pid : PID_T
  perm_mask : PPERM_T
  service_name : UInt64
  service_description : UInt64
  deriving DecidableEq

def MAX_SERVICES : ℤ := 50

/-- The memory around the static array `services`, one record after another. -/
abbrev Services := ℤ → Service

/-- `_service_create`, with the system call that spawns. It tells the place of the record that it writes. -/
def _service_create (spawn : UInt64 → PPERM_T → UInt8 → PID_T) (services : Services)
    (path name description : UInt64) (pmask : PPERM_T) (uses_console : UInt8) :
    Lib.Traced ℤ Halt (PID_T × Services) := do
  let ret := spawn path pmask uses_console
  let service : Service :=
    { pid := ret, perm_mask := pmask, service_name := name, service_description := description }
  Lib.Traced.tell service.pid.toInt
  return (ret, Function.update services service.pid.toInt service)

/-- **The answer `ret` of the spawn is recorded**: a service that was spawned is in its slot, and nothing is
written for one that was not, nor outside the array, nor over the record of a service that is still live. -/
structure Recorded (live : Service → Prop) (services services' : Services) (ret : PID_T) (service : Service)
    (deeds : List ℤ) : Prop where
  spawned : 0 ≤ ret → services' ret.toInt = service
  failed : ret < 0 → deeds = []
  others : ∀ i, i ≠ ret.toInt → services' i = services i
  inside : ∀ i ∈ deeds, 0 ≤ i ∧ i < MAX_SERVICES
  kept : ∀ i ∈ deeds, ¬live (services i)

/-- The call returns what the spawn does, and has recorded it. -/
def Creates (live : Service → Prop) (spawn : UInt64 → PPERM_T → UInt8 → PID_T) (services : Services)
    (path name description : UInt64) (pmask : PPERM_T) (uses_console : UInt8) : Prop :=
  ∃ services', (_service_create spawn services path name description pmask uses_console).result =
      .ok (spawn path pmask uses_console, services') ∧
    Recorded live services services' (spawn path pmask uses_console)
      ⟨spawn path pmask uses_console, pmask, name, description⟩
      (_service_create spawn services path name description pmask uses_console).deeds

/-- **For every answer of the spawn**, whatever is in the array and whichever services are still live: the
service is recorded as it should be if and only if the answer is the number of a slot that no live service
has. -/
theorem service_create_iff (live : Service → Prop) (spawn : UInt64 → PPERM_T → UInt8 → PID_T)
    (services : Services) (path name description : UInt64) (pmask : PPERM_T) (uses_console : UInt8) :
    Creates live spawn services path name description pmask uses_console ↔
      (0 ≤ (spawn path pmask uses_console).toInt ∧ (spawn path pmask uses_console).toInt < MAX_SERVICES) ∧
        ¬live (services (spawn path pmask uses_console).toInt) := by
  set ret := spawn path pmask uses_console
  have hmem : ret.toInt ∈ (_service_create spawn services path name description pmask uses_console).deeds :=
    List.mem_singleton_self _
  constructor
  · rintro ⟨services', -, h⟩
    exact ⟨h.inside _ hmem, h.kept _ hmem⟩
  · rintro ⟨hin, hlive⟩
    refine ⟨_, rfl, fun _ => Function.update_self .., fun hneg => ?_, fun i hi => Function.update_of_ne hi ..,
      fun i hi => ?_, fun i hi => ?_⟩
    · have hneg := Int16.lt_iff_toInt_lt.1 hneg
      exact absurd hin.1 (Int.not_le.2 hneg)
    · rw [List.mem_singleton.1 hi]
      exact hin
    · rw [List.mem_singleton.1 hi]
      exact hlive

/-- The spawn is refused: the record is written before the array. -/
theorem not_creates : ¬∀ live spawn services path name description pmask uses_console,
    Creates live spawn services path name description pmask uses_console := by
  intro h
  have hc := (service_create_iff (fun _ => False) (fun _ _ _ => -EPERM) (fun _ => ⟨0, 0, 0, 0⟩) 0 0 0 0 0).1
    (h _ _ _ _ _ _ _ _)
  exact absurd hc.1.1 (by decide)

/-! ### Many services -/

/-- The array, and the services that are live. -/
structure Init where
  services : Services
  live : List Service

/-- A service is created, with this answer of the spawn, or one comes to its end. -/
inductive InitEvent where
  | create (ret : PID_T) (name description : UInt64) (pmask : PPERM_T)
  | ends (service : Service)

/-- What happens to both. -/
inductive InitStep (s : Init) : InitEvent → Init → Prop where
  | create {ret : PID_T} {name description path : UInt64} {pmask : PPERM_T} {uses_console : UInt8}
      {services : Services} :
      (_service_create (fun _ _ _ => ret) s.services path name description pmask uses_console).result =
        .ok (ret, services) →
      InitStep s (.create ret name description pmask)
        ⟨services, if 0 ≤ ret then s.live ++ [⟨ret, pmask, name, description⟩] else s.live⟩
  | ends {service : Service} : InitStep s (.ends service) ⟨s.services, s.live.erase service⟩

/-- The answer is a slot that no live service has. -/
def FreeSlot (s : Init) : InitEvent → Prop
  | .create ret _ _ _ => (0 ≤ ret.toInt ∧ ret.toInt < MAX_SERVICES) ∧ s.services ret.toInt ∉ s.live
  | .ends _ => True

/-- Every live service is in the slot of its number, which is one of the array. -/
def Init.Kept (s : Init) : Prop :=
  ∀ service ∈ s.live, s.services service.pid.toInt = service ∧
    0 ≤ service.pid.toInt ∧ service.pid.toInt < MAX_SERVICES

theorem Init.Kept.step {s s' : Init} {e : InitEvent} (h : s.Kept) (hf : FreeSlot s e) (hs : InitStep s e s') :
    s'.Kept := by
  cases hs with
  | @create ret name description _ pmask _ services hr =>
    obtain ⟨-, rfl⟩ := Prod.mk.inj (Except.ok.inj hr)
    have hpos : 0 ≤ ret := Int16.le_iff_toInt_le.2 hf.1.1
    rw [if_pos hpos]
    intro service hmem
    rcases List.mem_append.1 hmem with hmem | hmem
    · obtain ⟨hslot, hin⟩ := h service hmem
      refine ⟨?_, hin⟩
      -- its slot is not the one that is written
      have hne : service.pid.toInt ≠ ret.toInt := by
        intro heq
        rw [heq] at hslot
        exact hf.2 (hslot ▸ hmem)
      exact (Function.update_of_ne hne ..).trans hslot
    · rw [List.mem_singleton.1 hmem]
      exact ⟨Function.update_self .., hf.1⟩
  | ends => exact fun service hmem => h service (List.mem_of_mem_erase hmem)

/-- **In every run** whose answers are free slots, every live service is in its own. -/
theorem services_kept {services : Services} {es : List InitEvent} {s : Init}
    (h : Run InitStep FreeSlot ⟨services, []⟩ es s) : s.Kept :=
  h.invariant (fun _ hm => absurd hm List.not_mem_nil) fun hk hf hs => hk.step hf hs

end Iridium
