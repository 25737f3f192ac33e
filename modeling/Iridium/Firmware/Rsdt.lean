import Iridium.Firmware.Ioapic

/-!
# The search for the table of interrupt controllers

The beginning of `acpi_init` of `firmware/acpi/acpi.c`, and `fetch_madt`: the RSDT is a header of 36 bytes and then
the addresses of the other tables. Their number is the table's length less 36, divided by 4 and narrowed to 32
bits. The length is a number from the table, and a length below 36 makes almost `2^32` of it.

So the addresses that are looked at are those in the table if and only if the header is (`finds_madt_iff`).
-/

namespace Iridium

open Lib

/-- `sizeof(acpi_header_t)`. -/
def HEADER_SIZE : ℕ := 36

/-- The bytes of memory from an address on. -/
def tableAt (mem : ℕ → UInt8) (a : ℕ) (i : ℕ) : UInt8 := mem (a + i)

/-- The loop of `strncmp`. -/
def strncmp_from (str1 str2 : ℕ → UInt8) : ℕ → ℕ → UInt8
  | 0, _ => 0
  | n + 1, i => if str1 i ≠ str2 i then 1 else strncmp_from str1 str2 n (i + 1)

/-- `strncmp`. -/
def strncmp (str1 str2 : ℕ → UInt8) (n : ℕ) : UInt8 := strncmp_from str1 str2 n 0

/-- `"APIC"`. -/
def APIC (i : ℕ) : UInt8 := "APIC".toUTF8.toList.getD i 0

section Rsdt

variable (mem : ℕ → UInt8) (rsdt : ℕ)

/-- `rsdt_entries`. -/
def rsdt_entries : UInt32 :=
  (((read32 (tableAt mem rsdt) 4).toUInt64 - HEADER_SIZE.toUInt64) / 4).toUInt32

/-- `rsdt->tables[i]`. -/
def rsdt_table (i : ℕ) : ℕ := (read32 (tableAt mem rsdt) (HEADER_SIZE + 4 * i)).toNat

/-- The loop of `fetch_madt`, with so many turns to go. It tells which bytes of the RSDT it reads. -/
def fetch_madt_from : ℕ → ℕ → TableScan ℕ
  | 0, _ => pure 0
  | n + 1, i => do
    let cur ← scan32 (tableAt mem rsdt) (HEADER_SIZE + 4 * i)
    if strncmp (tableAt mem cur.toNat) APIC 4 = 0 then pure cur.toNat else fetch_madt_from n (i + 1)

/-- `fetch_madt`. -/
def fetch_madt : TableScan ℕ := fetch_madt_from mem rsdt (rsdt_entries mem rsdt).toNat 0

/-- `acpi_init`, with the address of the RSDT. -/
def acpi_init_rsdt (acpi : Acpi) : TableScan Acpi := do
  if !verify_checksum (tableAt mem rsdt) then Traced.lift (.error .stopped)
  else do
    let madt ← fetch_madt mem rsdt
    if madt = 0 then Traced.lift (.error .stopped) else Traced.lift (acpi_init (tableAt mem madt) acpi)

/-! ### The property -/

/-- How many addresses of tables there are in the RSDT. -/
def rsdt_count : ℕ := (header_length (tableAt mem rsdt) - HEADER_SIZE) / 4

/-- The table has the signature `APIC`. -/
def HasSignature (cur : ℕ) : Prop := ∀ i < 4, mem (cur + i) = APIC i

instance (cur : ℕ) : Decidable (HasSignature mem cur) := inferInstanceAs (Decidable (∀ i < 4, _))

/-- The first of these tables with the signature, or `NULL`. -/
def first_apic : ℕ :=
  (((List.range (rsdt_count mem rsdt)).map (rsdt_table mem rsdt)).find? fun cur => HasSignature mem cur).getD 0

/-- **The search** looks at the addresses in the table only, and finds the first table that has the signature;
booting goes on with it. -/
structure FindsMadt (acpi : Acpi) : Prop where
  looks : (acpi_init_rsdt mem rsdt acpi).All fun a => HEADER_SIZE ≤ a ∧ a < HEADER_SIZE + 4 * rsdt_count mem rsdt
  finds : (fetch_madt mem rsdt).result = .ok (first_apic mem rsdt)
  boots : (acpi_init_rsdt mem rsdt acpi).result =
    if first_apic mem rsdt = 0 then .error .stopped else acpi_init (tableAt mem (first_apic mem rsdt)) acpi

end Rsdt

section Fetch

variable {mem : ℕ → UInt8} {rsdt n i : ℕ} {P : ℕ → Prop}

/-- **The number of entries**, which wraps for a length that the header does not fit in. -/
theorem rsdt_entries_toNat : (rsdt_entries mem rsdt).toNat =
    if HEADER_SIZE ≤ header_length (tableAt mem rsdt) then rsdt_count mem rsdt
    else 2 ^ 32 - (39 - header_length (tableAt mem rsdt)) / 4 := by
  have hlt := (read32 (tableAt mem rsdt) 4).toNat_lt
  have hdiv : (rsdt_entries mem rsdt).toNat =
      (2 ^ 64 - 36 + header_length (tableAt mem rsdt)) % 2 ^ 64 / 4 % 2 ^ 32 := by
    rw [rsdt_entries, UInt64.toNat_toUInt32, UInt64.toNat_div, UInt64.toNat_sub, UInt32.toNat_toUInt64]
    rfl
  rw [hdiv, rsdt_count]
  unfold header_length HEADER_SIZE
  split <;> omega

theorem strncmp_from_eq_zero {str1 str2 : ℕ → UInt8} :
    strncmp_from str1 str2 n i = 0 ↔ ∀ j < n, str1 (i + j) = str2 (i + j) := by
  induction n generalizing i with
  | zero => exact iff_of_true rfl fun j hj => absurd hj (Nat.not_lt_zero j)
  | succ n ih =>
    rw [strncmp_from, Nat.forall_lt_succ_left]
    split
    next hne => exact iff_of_false (by decide) fun h => hne h.1
    next heq =>
      rw [ih, and_iff_right (show str1 (i + 0) = str2 (i + 0) from not_ne_iff.1 heq)]
      simp only [Nat.add_assoc, Nat.add_comm 1]

/-- **The comparison** finds the signature. -/
theorem strncmp_eq_zero {cur : ℕ} : strncmp (tableAt mem cur) APIC 4 = 0 ↔ HasSignature mem cur := by
  rw [strncmp, strncmp_from_eq_zero]
  simp only [Nat.zero_add]
  rfl

/-- **What the loop answers**: the first table with the signature, from the next one on. -/
theorem fetch_madt_from_result : (fetch_madt_from mem rsdt n i).result =
    .ok ((((List.range' i n).map (rsdt_table mem rsdt)).find? fun cur => HasSignature mem cur).getD 0) := by
  induction n generalizing i with
  | zero => rfl
  | succ n ih =>
    rw [fetch_madt_from, Traced.result_bind, scan32_result, List.range'_succ, List.map_cons]
    show (if strncmp (tableAt mem (rsdt_table mem rsdt i)) APIC 4 = 0 then pure (rsdt_table mem rsdt i)
      else fetch_madt_from mem rsdt n (i + 1) : TableScan ℕ).result = _
    by_cases h : HasSignature mem (rsdt_table mem rsdt i)
    · rw [List.find?_cons_of_pos (by simpa using h), if_pos (strncmp_eq_zero.2 h)]
      rfl
    · rw [List.find?_cons_of_neg (by simpa using h), if_neg (mt strncmp_eq_zero.1 h), ih]

/-- It reads no further than its last turn. -/
theorem fetch_madt_from_all (h : ∀ j < n, ∀ b < 4, P (HEADER_SIZE + 4 * (i + j) + b)) :
    (fetch_madt_from mem rsdt n i).All P := by
  induction n generalizing i with
  | zero => exact Traced.all_pure _
  | succ n ih =>
    have hscan : (scan32 (tableAt mem rsdt) (HEADER_SIZE + 4 * i)).All P := by
      rw [scan32, Traced.all_bind_ok (Traced.result_tells _ _), Traced.all_tells]
      exact ⟨h 0 (Nat.succ_pos n), Traced.all_pure _⟩
    rw [fetch_madt_from, Traced.all_bind_ok scan32_result]
    refine ⟨hscan, ?_⟩
    split
    · exact Traced.all_pure _
    · refine ih fun j hj b hb => ?_
      rw [Nat.add_right_comm i 1 j]
      exact h (j + 1) (Nat.succ_lt_succ hj) b hb

/-- Its first turn reads the first address. -/
theorem fetch_madt_from_first (h : (fetch_madt_from mem rsdt (n + 1) i).All P) : P (HEADER_SIZE + 4 * i) := by
  rw [fetch_madt_from, Traced.all_bind_ok scan32_result, scan32, Traced.all_bind_ok (Traced.result_tells _ _),
    Traced.all_tells] at h
  exact h.1.1 0 (by decide)

/-- What is done with a valid checksum. -/
theorem acpi_init_rsdt_eq (h : verify_checksum (tableAt mem rsdt) = true) (acpi : Acpi) :
    acpi_init_rsdt mem rsdt acpi = fetch_madt mem rsdt >>= fun madt =>
      if madt = 0 then Traced.lift (.error .stopped) else Traced.lift (acpi_init (tableAt mem madt) acpi) := by
  rw [acpi_init_rsdt, h]
  rfl

/-- **A search that is right** has a header before the addresses. -/
theorem FindsMadt.length {acpi : Acpi} (hf : FindsMadt mem rsdt acpi) (h : verify_checksum (tableAt mem rsdt) = true) :
    HEADER_SIZE ≤ header_length (tableAt mem rsdt) := by
  by_contra hlt
  have hcount : (rsdt_entries mem rsdt).toNat ≠ 0 := by
    rw [rsdt_entries_toNat, if_neg hlt]
    omega
  obtain ⟨n, hn⟩ := Nat.exists_eq_succ_of_ne_zero hcount
  have hlooks := hf.looks
  rw [acpi_init_rsdt_eq h, Traced.all_bind, fetch_madt, hn] at hlooks
  obtain ⟨-, hin⟩ := fetch_madt_from_first hlooks.1
  rw [rsdt_count] at hin
  omega

end Fetch

/-- **For every RSDT** with a valid checksum: the search is right if and only if the length has room for the header. -/
theorem finds_madt_iff {mem : ℕ → UInt8} {rsdt : ℕ} (h : verify_checksum (tableAt mem rsdt) = true) (acpi : Acpi) :
    FindsMadt mem rsdt acpi ↔ HEADER_SIZE ≤ header_length (tableAt mem rsdt) := by
  refine ⟨fun hf => hf.length h, fun hle => ?_⟩
  have hcount : (rsdt_entries mem rsdt).toNat = rsdt_count mem rsdt := rsdt_entries_toNat.trans (if_pos hle)
  have hfinds : (fetch_madt mem rsdt).result = .ok (first_apic mem rsdt) := by
    rw [fetch_madt, hcount, fetch_madt_from_result, ← List.range_eq_range']
    rfl
  refine ⟨?_, hfinds, ?_⟩
  · rw [acpi_init_rsdt_eq h, Traced.all_bind_ok hfinds, fetch_madt, hcount]
    refine ⟨fetch_madt_from_all fun j hj b hb => ⟨by omega, by omega⟩, ?_⟩
    split <;> exact Traced.all_lift _
  · rw [acpi_init_rsdt_eq h, Traced.result_bind, hfinds]
    show (if _ then _ else _ : TableScan Acpi).result = _
    split <;> rfl

/-- Memory with an RSDT at `0`, and a table with the signature at the one address in it. -/
def smallRsdt (i : ℕ) : UInt8 :=
  if i = 4 then 40 else if i = 9 then 0x98 else if i = 36 then 64
  else if 64 ≤ i then APIC (i - 64) else 0

/-- It is found. -/
theorem finds_madt_small : FindsMadt smallRsdt 0 ⟨0, 0, 0⟩ ∧ first_apic smallRsdt 0 = 64 :=
  ⟨(finds_madt_iff (by decide +kernel) _).2 (by decide +kernel), by decide +kernel⟩

/-- An RSDT without a length has a valid checksum, and more than `2^32 - 10` addresses are looked at. -/
theorem not_finds_madt : ¬∀ (mem : ℕ → UInt8) (rsdt : ℕ) (acpi : Acpi),
    verify_checksum (tableAt mem rsdt) = true → FindsMadt mem rsdt acpi := by
  intro h
  have hvalid : verify_checksum (tableAt (fun _ => 0) 0) = true := by decide
  exact absurd ((h _ 0 ⟨0, 0, 0⟩ hvalid).length hvalid) (by decide)

end Iridium
