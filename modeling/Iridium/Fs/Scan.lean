import Iridium.Fs.Archive
import Iridium.Lib.Lasso

/-!
# The scan of an archive that may be anything

The loop of `initrd_open` goes from one header to the next by the size it reads, eleven characters less `'0'`
each, whatever they are. The step may be zero, or go backwards. The search comes to an end if and only if it
does not come back to a header where it was (`find_returns_iff`).
-/

namespace Iridium

open Lib

/-- The address of the next header. -/
def next_header (mem : UInt64 → UInt8) (address : UInt64) : UInt64 :=
  address + ((getsize mem (address + TAR_SIZE_OFFSET) + 511) / 512 + 1) * 512

/-- The search goes on behind the header at an address: it has a name, and not the one looked for. -/
def GoesOn (mem : UInt64 → UInt8) (path : List UInt8) (address : UInt64) : Prop :=
  mem address ≠ 0 ∧ strcmp_eq mem address path ≠ .ok true

section Scan

variable {mem : UInt64 → UInt8} {path : List UInt8} {header address : UInt64} {fuel : ℕ}

/-- One turn of the loop. -/
theorem initrd_scan_succ : initrd_scan mem path (fuel + 1) header address =
    if mem header = 0 then .ok none
    else strcmp_eq mem address path >>= fun same =>
      if same then .ok (some (address, getsize mem (address + TAR_SIZE_OFFSET)))
      else initrd_scan mem path fuel address (next_header mem address) := rfl

/-- A search that ends has met a header without a name, or with the one looked for. -/
theorem stop_of_scan {o : Option (UInt64 × UInt64)} (h : initrd_scan mem path fuel header address = .ok o) :
    mem header = 0 ∨ ∃ n, ¬GoesOn mem path ((next_header mem)^[n] address) := by
  induction fuel generalizing header address with
  | zero => cases h
  | succ fuel ih =>
    rw [initrd_scan_succ] at h
    split at h
    next h0 => exact .inl h0
    next =>
      obtain ⟨b, hb, h⟩ := bind_ok.1 h
      cases b with
      | true => exact .inr ⟨0, fun hgo => hgo.2 hb⟩
      | false =>
        rcases ih h with h0 | ⟨n, hn⟩
        · exact .inr ⟨0, fun hgo => hgo.1 h0⟩
        · exact .inr ⟨n + 1, by rwa [Function.iterate_succ_apply]⟩

/-- A search that meets such a header ends there at the latest. -/
theorem scan_of_stop {n : ℕ} (hstr : ∀ a, ∃ b, strcmp_eq mem a path = .ok b)
    (hn : ¬GoesOn mem path ((next_header mem)^[n] address)) (hf : n + 1 < fuel) :
    ∃ o, initrd_scan mem path fuel header address = .ok o := by
  induction n generalizing fuel header address with
  | zero =>
    obtain ⟨fuel, rfl⟩ : ∃ k, fuel = k + 2 := ⟨fuel - 2, by omega⟩
    obtain ⟨b, hb⟩ := hstr address
    rw [initrd_scan_succ]
    split
    · exact ⟨_, rfl⟩
    · rw [hb]
      cases b with
      | true => exact ⟨_, rfl⟩
      | false =>
        -- the header has no name, which the next turn looks at
        have h0 : mem address = 0 := by
          by_contra hne
          exact hn ⟨hne, by rw [Function.iterate_zero_apply, hb]; simp⟩
        refine ⟨none, ?_⟩
        show initrd_scan mem path (fuel + 1) address _ = _
        rw [initrd_scan_succ, if_pos h0]
  | succ n ih =>
    obtain ⟨fuel, rfl⟩ : ∃ k, fuel = k + 1 := ⟨fuel - 1, by omega⟩
    obtain ⟨b, hb⟩ := hstr address
    rw [initrd_scan_succ]
    split
    · exact ⟨_, rfl⟩
    · rw [hb]
      cases b with
      | true => exact ⟨_, rfl⟩
      | false => exact ih (by rwa [← Function.iterate_succ_apply]) (by omega)

/-- A comparison that does not end has met no zero byte in all of memory. -/
theorem strlen_at_none {a : UInt64} (h : strlen_at mem fuel a = none) {i : ℕ} (hi : i < fuel) :
    mem (a + UInt64.ofNat i) ≠ 0 := by
  induction fuel generalizing a i with
  | zero => omega
  | succ fuel ih =>
    rw [strlen_at] at h
    split at h
    next => cases h
    next h0 =>
      cases i with
      | zero => simpa using h0
      | succ i =>
        rw [← add_one_ofNat]
        exact ih (Option.map_eq_none_iff.1 h) (by omega)

theorem strcmp_eq_returns (h0 : mem header = 0) (a : UInt64) : ∃ b, strcmp_eq mem a path = .ok b := by
  unfold strcmp_eq
  cases hl : strlen_at mem (2 ^ 64) a with
  | none =>
    have hne := strlen_at_none hl (i := (header - a).toNat) (header - a).toNat_lt
    rw [UInt64.ofNat_toNat, UInt64.add_comm, UInt64.sub_add_cancel] at hne
    exact absurd h0 hne
  | some n =>
    rw [ofFuel]
    show ∃ b, (if UInt32.ofNat n ≠ UInt32.ofNat path.length then pure false else pure (bytes_eq mem a path)) = _
    split
    · exact ⟨_, rfl⟩
    · exact ⟨_, rfl⟩

/-- Where the search stops there is a zero byte. -/
theorem zero_of_stop (h : ¬GoesOn mem path address) : ∃ z, mem z = 0 := by
  by_cases h0 : mem address = 0
  · exact ⟨address, h0⟩
  · have hcmp : strcmp_eq mem address path = .ok true := by
      by_contra hne
      exact h ⟨h0, hne⟩
    obtain ⟨n, hn, -⟩ := bind_ok.1 hcmp
    exact ⟨_, (strlen_at_iff.1 (ofFuel_ok.1 hn)).2.2⟩

/-- A search that comes back does not end. -/
theorem find_circles {m : Mm} (hlen : ¬99 < path.length)
    (hc : Circles (next_header m.module) (GoesOn m.module path) (m.initrd + 0x200)) (o : Option (UInt64 × UInt64)) :
    initrd_find m path ≠ .ok o := by
  intro ho
  rw [initrd_find, if_neg hlen] at ho
  rcases stop_of_scan ho with h0 | ⟨n, hn⟩
  · exact (hc.forever 0).1 h0
  · exact hn (hc.forever n)

theorem find_of_not_circles {m : Mm} (hlen : ¬99 < path.length)
    (hc : ¬Circles (next_header m.module) (GoesOn m.module path) (m.initrd + 0x200)) :
    ∃ o, initrd_find m path = .ok o := by
  obtain ⟨n, hle, hn⟩ := exists_stop (N := 2 ^ 64) UInt64.toNat (fun _ _ => UInt64.toNat_inj.1)
    UInt64.toNat_lt hc
  obtain ⟨z, hz⟩ := zero_of_stop hn
  rw [initrd_find, if_neg hlen]
  exact scan_of_stop (strcmp_eq_returns hz) hn (Nat.lt_of_le_of_lt (Nat.add_le_add_right hle 1) (by decide))

/-- The search ends when the header behind one that has a name is always further up. -/
theorem find_of_upwards {m : Mm} (hlen : ¬99 < path.length)
    (h : ∀ a, GoesOn m.module path a → a < next_header m.module a) : ∃ o, initrd_find m path = .ok o :=
  find_of_not_circles hlen (not_circles_of_lt UInt64.toNat fun a ha => UInt64.lt_iff_toNat_lt.1 (h a ha))

end Scan

/-- **The search of `initrd_open` ends**, for any content of the module and any path, if and only if it does not
come back to a header where it was, past headers that all have names and not the one looked for. -/
theorem find_returns_iff (m : Mm) (path : List UInt8) : (∃ o, initrd_find m path = .ok o) ↔
    99 < path.length ∨ ¬Circles (next_header m.module) (GoesOn m.module path) (m.initrd + 0x200) := by
  by_cases hlen : 99 < path.length
  · rw [initrd_find, if_pos hlen]
    exact iff_of_true ⟨none, rfl⟩ (.inl hlen)
  rw [or_iff_right hlen]
  exact ⟨fun ⟨o, ho⟩ hc => find_circles hlen hc o ho, find_of_not_circles hlen⟩

/-- The size is 512 less than `0`: the digit of 64 is `'('`. -/
def circling : Mm :=
  { bareMm with module := fun a => if a = 0x200 then 120 else if a = 0x201 then 0 else if a = 0x284 then 40 else 48 }

/-- The search stays at the header it looks at. -/
theorem not_find_returns : ¬∀ (m : Mm) (path : List UInt8), ∃ o, initrd_find m path = .ok o := by
  intro h
  obtain ⟨o, ho⟩ := h circling [121]
  refine find_circles (by decide) ⟨0, 1, by decide, by decide, fun i hi => ?_⟩ o ho
  obtain rfl : i = 0 := by omega
  have hcmp : strcmp_eq circling.module 0x200 [121] = .ok false := by rfl
  refine ⟨by decide, ?_⟩
  rw [Function.iterate_zero_apply, show circling.initrd + 0x200 = 0x200 from rfl, hcmp]
  simp

end Iridium
