import Iridium.Proc.Step
import Mathlib.Data.List.Induction

/-!
# How services are registered

`uapi/sysreq.c`, and the three functions that register a service. The table of services is a static array of three
addresses; `sysreq_append_service` enters one if there is none at its place, and `sysreq` calls what is there. Each
place has the first service that was registered for it, and nothing is written behind the array
(`services_first_come`). So once `uapi_init` has run, `sysreq` is what it was taken for so far, whatever is registered
later (`sysreq_registered`).
-/

namespace Iridium

def SERVICE_COUNT : UInt32 := 3

/-- `UAPI_SERVICE_NUM_T`, but for its prefix. -/
def KEYB_SERVICE : UInt32 := 0
def SCREEN_SERVICE : UInt32 := 1
def PROCINFO_SERVICE : UInt32 := 2

/-- `services`, and what memory has behind it, in words of 8 bytes: addresses of functions, or `NULL`. -/
abbrev ServiceTable := ℕ → UInt64

/-- `sysreq_append_service`. -/
def sysreq_append_service (services : ServiceTable) (service_num : UInt32) (service : UInt64) : ServiceTable :=
  if services service_num.toNat ≠ 0 ∨ service_num ≥ SERVICE_COUNT then services
  else Function.update services service_num.toNat service

/-- The addresses of the three services. -/
structure Routines where
  keyboard_uapi : UInt64
  screen_uapi : UInt64
  procinfo_uapi : UInt64
  nonzero : keyboard_uapi ≠ 0 ∧ screen_uapi ≠ 0 ∧ procinfo_uapi ≠ 0
  distinct : keyboard_uapi ≠ screen_uapi ∧ keyboard_uapi ≠ procinfo_uapi ∧ screen_uapi ≠ procinfo_uapi

/-- The table, and the three static variables `__uapi_append_lock`. -/
structure Registry where
  services : ServiceTable
  keyb_lock : UInt8
  screen_lock : UInt8
  procinfo_lock : UInt8

/-- `keyboard_uapi_init`. -/
def keyboard_uapi_init (rs : Routines) (r : Registry) : Registry :=
  if r.keyb_lock = 0 then
    { r with keyb_lock := 1, services := sysreq_append_service r.services KEYB_SERVICE rs.keyboard_uapi }
  else r

/-- `screen_uapi_init`. -/
def screen_uapi_init (rs : Routines) (r : Registry) : Registry :=
  if r.screen_lock = 0 then
    { r with screen_lock := 1, services := sysreq_append_service r.services SCREEN_SERVICE rs.screen_uapi }
  else r

/-- `procinfo_uapi_init`. -/
def procinfo_uapi_init (rs : Routines) (r : Registry) : Registry :=
  if r.procinfo_lock = 0 then
    { r with
      procinfo_lock := 1
      services := sysreq_append_service r.services PROCINFO_SERVICE rs.procinfo_uapi }
  else r

/-- `uapi_init`. -/
def uapi_init (rs : Routines) (r : Registry) : Registry :=
  procinfo_uapi_init rs (screen_uapi_init rs (keyboard_uapi_init rs r))

/-- The registry before anything is registered, with what happens to lie behind the array. -/
def Registry.boot (behind : ServiceTable) : Registry := ⟨fun n => if n < 3 then 0 else behind n, 0, 0, 0⟩

/-- The function at an address, if it is one of the services. -/
def call_service (rs : Routines) (address : UInt64) (k : Kernel) (request : UInt64) :
    Kern (UAPI_STATUS_T × Option UInt64 × Kernel) :=
  if address = rs.keyboard_uapi then .ok (keyboard_uapi k request)
  else if address = rs.screen_uapi then do
    let verified := verify_drvmaster k DRIVERTYPE_DISPLAY ≥ 0
    let (status, screen, fb) ← screen_uapi k.screen k.console.fb verified request
    return (status, none, { k with screen, console := { k.console with fb } })
  else if address = rs.procinfo_uapi then .ok (procinfo_uapi k request)
  else .error .stopped

/-- `sysreq`, with the table. -/
def sysreq_through (rs : Routines) (services : ServiceTable) (k : Kernel) (service_num : UInt32) (request : UInt64) :
    Kern (UAPI_STATUS_T × Option UInt64 × Kernel) :=
  if service_num ≥ SERVICE_COUNT ∨ services service_num.toNat = 0 then .ok (.UAPI_INVALID_SERVICE, none, k)
  else call_service rs (services service_num.toNat) k request

/-- A service and the number it is to have. -/
abbrev Registration := UInt32 × UInt64

/-- Services registered one after the other. -/
def append_services (services : ServiceTable) (gs : List Registration) : ServiceTable :=
  gs.foldl (fun s g => sysreq_append_service s g.1 g.2) services

/-- The services that are to have a number, `NULL` apart. -/
def registered_for (gs : List Registration) (n : ℕ) : List UInt64 :=
  (gs.filter fun g => g.1.toNat = n ∧ g.2 ≠ 0).map Prod.snd

section Registry

variable {rs : Routines} {services : ServiceTable} {gs : List Registration} {n : ℕ}

/-- What is there stays, and nothing is entered behind the array. -/
theorem append_service_keeps {num : UInt32} {service : UInt64} (h : services n ≠ 0 ∨ 3 ≤ n) :
    sysreq_append_service services num service n = services n := by
  unfold sysreq_append_service
  split
  · rfl
  next hc =>
    obtain ⟨h0, hlt⟩ := not_or.1 hc
    refine Function.update_of_ne ?_ _ _
    rintro rfl
    rcases h with h | h
    · exact h (not_not.1 h0)
    · exact hlt (UInt32.le_iff_toNat_le.2 h)

theorem append_services_keeps (h : services n ≠ 0 ∨ 3 ≤ n) : append_services services gs n = services n := by
  unfold append_services
  induction gs generalizing services with
  | nil => rfl
  | cons g gs ih =>
    have hkeep : sysreq_append_service services g.1 g.2 n = services n := append_service_keeps h
    rw [List.foldl_cons, ih (by rwa [hkeep]), hkeep]

/-- An entry is made at its place. -/
theorem append_service_enters {num : UInt32} {service : UInt64} (h0 : services num.toNat = 0) (h : num.toNat < 3) :
    sysreq_append_service services num service num.toNat = service := by
  have hlt : ¬num ≥ SERVICE_COUNT := fun hc => absurd (UInt32.le_iff_toNat_le.1 hc) (Nat.not_le.2 h)
  rw [sysreq_append_service, if_neg (not_or.2 ⟨not_not.2 h0, hlt⟩), Function.update_self]

/-- And nowhere else. -/
theorem append_service_elsewhere {num : UInt32} {service : UInt64} (h : num.toNat ≠ n) :
    sysreq_append_service services num service n = services n := by
  unfold sysreq_append_service
  split
  · rfl
  · exact Function.update_of_ne (Ne.symm h) _ _

/-- **What is at a place**: what was there, or the first service that was registered for it. -/
theorem append_services_at (hn : n < 3) (h0 : services n = 0) :
    append_services services gs n = (registered_for gs n).headD 0 := by
  induction gs generalizing services with
  | nil => exact h0
  | cons g gs ih =>
    have hstep : append_services services (g :: gs) = append_services (sysreq_append_service services g.1 g.2) gs := rfl
    rw [hstep, registered_for, List.filter_cons]
    by_cases hg : g.1.toNat = n
    · subst hg
      have henter : sysreq_append_service services g.1 g.2 g.1.toNat = g.2 := append_service_enters h0 hn
      by_cases hz : g.2 = 0
      · -- `NULL` enters nothing
        rw [if_neg (by simp [hz]), ih (henter.trans hz)]
        rfl
      · rw [if_pos (by simp [hz]), append_services_keeps (.inl (by rwa [henter])), henter]
        rfl
    · rw [if_neg (by simp [hg]), ih ((append_service_elsewhere hg).trans h0)]
      rfl

/-- The table at the end of `uapi_init`. -/
theorem uapi_init_services (rs : Routines) (behind : ServiceTable) :
    (uapi_init rs (.boot behind)).services = append_services (Registry.boot behind).services
      [(KEYB_SERVICE, rs.keyboard_uapi), (SCREEN_SERVICE, rs.screen_uapi),
        (PROCINFO_SERVICE, rs.procinfo_uapi)] := rfl

end Registry

/-- **However services are registered**: each of the three places has the first that was registered for it, and what
lies behind the array is left alone. -/
theorem services_first_come (behind : ServiceTable) (gs : List Registration) :
    (∀ n, n < 3 → append_services (Registry.boot behind).services gs n = (registered_for gs n).headD 0) ∧
      ∀ n, 3 ≤ n → append_services (Registry.boot behind).services gs n = behind n := by
  refine ⟨fun n hn => append_services_at hn (if_pos hn), fun n hn => ?_⟩
  rw [append_services_keeps (.inr hn)]
  exact if_neg (Nat.not_lt.2 hn)

/-- **After `uapi_init`**, whatever is registered then, a request goes to the service of its number. -/
theorem sysreq_registered (rs : Routines) (behind : ServiceTable) (gs : List Registration) (k : Kernel)
    (service_num : UInt32) (request : UInt64) :
    sysreq_through rs (append_services (uapi_init rs (.boot behind)).services gs) k service_num request =
      sysreq k service_num request := by
  obtain ⟨hk, hs, hp⟩ := rs.nonzero
  obtain ⟨hks, hkp, hsp⟩ := rs.distinct
  have hall : ∀ n, append_services (uapi_init rs (.boot behind)).services gs n =
      append_services (Registry.boot behind).services ([(KEYB_SERVICE, rs.keyboard_uapi),
        (SCREEN_SERVICE, rs.screen_uapi), (PROCINFO_SERVICE, rs.procinfo_uapi)] ++ gs) n := fun n => by
    rw [uapi_init_services, append_services, append_services, append_services, List.foldl_append]
  have hat : ∀ n < 3, append_services (uapi_init rs (.boot behind)).services gs n = (registered_for
      ([(KEYB_SERVICE, rs.keyboard_uapi), (SCREEN_SERVICE, rs.screen_uapi),
        (PROCINFO_SERVICE, rs.procinfo_uapi)] ++ gs) n).headD 0 := fun n hn =>
    (hall n).trans ((append_services_at hn (if_pos hn)))
  have h0 : append_services (uapi_init rs (.boot behind)).services gs 0 = rs.keyboard_uapi :=
    (hat 0 (by decide)).trans (by simp [registered_for, KEYB_SERVICE, hk])
  have h1 : append_services (uapi_init rs (.boot behind)).services gs 1 = rs.screen_uapi :=
    (hat 1 (by decide)).trans (by simp [registered_for, KEYB_SERVICE, SCREEN_SERVICE, hs])
  have h2 : append_services (uapi_init rs (.boot behind)).services gs 2 = rs.procinfo_uapi :=
    (hat 2 (by decide)).trans
      (by simp [registered_for, KEYB_SERVICE, SCREEN_SERVICE, PROCINFO_SERVICE, hp])
  rw [sysreq_through, sysreq]
  by_cases hb : service_num ≥ SERVICE_COUNT
  · rw [if_pos (.inl hb)]
    have hne : service_num ≠ 0 ∧ service_num ≠ 1 ∧ service_num ≠ 2 := by
      refine ⟨?_, ?_, ?_⟩ <;> rintro rfl <;> exact absurd hb (by decide)
    rw [if_neg hne.1, if_neg hne.2.1, if_neg hne.2.2]
  · have hlt : service_num.toNat < 3 := Nat.not_le.1 fun hc => hb (UInt32.le_iff_toNat_le.2 hc)
    obtain rfl | rfl | rfl : service_num = 0 ∨ service_num = 1 ∨ service_num = 2 := by
      have hnum : ∀ n : UInt32, service_num.toNat = n.toNat → service_num = n := fun n => UInt32.toNat_inj.1
      obtain h | h | h : service_num.toNat = 0 ∨ service_num.toNat = 1 ∨ service_num.toNat = 2 := by omega
      · exact .inl (hnum 0 h)
      · exact .inr (.inl (hnum 1 h))
      · exact .inr (.inr (hnum 2 h))
    · rw [show (0 : UInt32).toNat = 0 from rfl, h0, if_neg (by simp [hk, SERVICE_COUNT])]
      exact if_pos rfl
    · rw [show (1 : UInt32).toNat = 1 from rfl, h1, if_neg (by simp [hs, SERVICE_COUNT]), call_service,
        if_neg (Ne.symm hks), if_pos rfl]
      rfl
    · rw [show (2 : UInt32).toNat = 2 from rfl, h2, if_neg (by simp [hp, SERVICE_COUNT]), call_service,
        if_neg (Ne.symm hkp), if_neg (Ne.symm hsp), if_pos rfl]
      rfl

/-- Three addresses in the kernel. -/
def some_routines : Routines :=
  ⟨0xffffffff80001000, 0xffffffff80002000, 0xffffffff80003000, by decide, by decide⟩

/-- Another function is registered for the screen, and one for a number behind the last: the screen service is called
as before, and the other number has none. -/
theorem sysreq_registered_again : ∃ services, services = append_services
      (uapi_init some_routines (.boot fun _ => 0xffffffff80004000)).services
      [(SCREEN_SERVICE, 0xffffffff80004000), (SERVICE_COUNT, 0xffffffff80004000)] ∧
    sysreq_through some_routines services machine SCREEN_SERVICE 5 = sysreq machine SCREEN_SERVICE 5 ∧
    sysreq_through some_routines services machine SERVICE_COUNT 5 = .ok (.UAPI_INVALID_SERVICE, none, machine) :=
  ⟨_, rfl, sysreq_registered _ _ _ _ _ _, (sysreq_registered _ _ _ _ _ _).trans rfl⟩

end Iridium
