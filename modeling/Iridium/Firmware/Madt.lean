import Iridium.Common.Elf
import Iridium.Lib.TracedLoop

/-!
# The table of interrupt controllers

`firmware/acpi/acpi.c`: the MADT is a header of 44 bytes and then records, each with its type and its length
before its data. Two loops walk over the records, `parse_madt` for the processors and the I/O APIC, and
`acpi_irq_to_gsi` for the interrupt that a line is connected to. They compare the address of a record with the
end of the table, but not the end of what they read of it, and go on by its length whatever it is.

So they end inside the table when every record they get to has a length and is there as far as it is
read (`madt_walks_iff`). A table is the bytes from its address on, which is below `2^32`, so that no address wraps.
-/

namespace Iridium

open Lib

def APIC_TYPE_LOCAL_APIC : UInt8 := 0
def APIC_TYPE_IO_APIC : UInt8 := 1
def APIC_TYPE_INTERRUPT_OVERRIDE : UInt8 := 2

/-- `sizeof(acpi_madt_t)`. -/
def MADT_SIZE : ℕ := 44

/-- The static variables of `acpi.c`, but for the pointers to the tables. -/
structure Acpi where
  lapic_base : UInt64
  ioapic_base : UInt64
  n_cores : UInt8
  deriving DecidableEq

/-- A function that tells which bytes of the table it reads. -/
abbrev TableScan (α : Type) := Traced ℕ Halt α

section Walk

variable (mem : ℕ → UInt8)

/-- `header.length`. -/
def header_length : ℕ := (read32 mem 4).toNat

/-- The sum of the first bytes. -/
def checksum : ℕ → UInt8
  | 0 => 0
  | n + 1 => checksum n + mem n

/-- `verify_checksum`. -/
def verify_checksum : Bool := checksum mem (header_length mem) == 0

/-- `cur + apic_header->length`. -/
def next_record (cur : ℕ) : ℕ := cur + (mem (cur + 1)).toNat

/-- A field of 32 bits. -/
def scan32 (a : ℕ) : TableScan UInt32 := do
  Traced.tells (fun i => a + i) 4
  return read32 mem a

/-- The `switch` of `parse_madt`. -/
def madt_switch (cur : ℕ) (s : Acpi) : TableScan Acpi :=
  if mem cur = APIC_TYPE_LOCAL_APIC then pure { s with n_cores := s.n_cores + 1 }
  else if mem cur = APIC_TYPE_IO_APIC then do
    let io_apic_addr ← scan32 mem (cur + 4)
    pure { s with ioapic_base := io_apic_addr.toUInt64 }
  else pure s

/-- The body of the loop of `parse_madt`. -/
def parse_madt_turn : ℕ × Acpi → TableScan (Acpi ⊕ ℕ × Acpi)
  | (cur, s) =>
    if cur < header_length mem then do
      Traced.tell cur
      let s ← madt_switch mem cur s
      Traced.tell (cur + 1)
      return .inr (next_record mem cur, s)
    else return .inl s

/-- The loop of `parse_madt`. -/
def parse_madt_walk (fuel : ℕ) (s : Acpi) : TableScan Acpi :=
  Traced.loop .endless (parse_madt_turn mem) fuel (MADT_SIZE, s)

/-- `parse_madt`. A walk that ends takes no more turns than the table has bytes, and one for its end. -/
def parse_madt (s : Acpi) : Kern Acpi :=
  (parse_madt_walk mem (header_length mem + 1) { s with lapic_base := (read32 mem 36).toUInt64 }).result

/-- The line that an override is for. -/
def madt_source (cur : ℕ) : TableScan (Option UInt8) :=
  if mem cur = APIC_TYPE_INTERRUPT_OVERRIDE then do
    Traced.tell (cur + 3)
    pure (some (mem (cur + 3)))
  else pure none

/-- The body of the loop of `acpi_irq_to_gsi`. -/
def acpi_irq_to_gsi_turn (irq : UInt8) (cur : ℕ) : TableScan (UInt16 ⊕ ℕ) :=
  if cur < header_length mem then do
    Traced.tell cur
    let source ← madt_source mem cur
    if source = some irq then do
      let interrupt ← scan32 mem (cur + 4)
      return .inl interrupt.toUInt16
    else do
      Traced.tell (cur + 1)
      return .inr (next_record mem cur)
  else return .inl irq.toUInt16

/-- The loop of `acpi_irq_to_gsi`. -/
def acpi_irq_to_gsi_walk (fuel : ℕ) (irq : UInt8) : TableScan UInt16 :=
  Traced.loop .endless (acpi_irq_to_gsi_turn mem irq) fuel MADT_SIZE

/-- `acpi_irq_to_gsi`. -/
def acpi_irq_to_gsi (irq : UInt8) : Kern UInt16 := (acpi_irq_to_gsi_walk mem (header_length mem + 1) irq).result

/-! ### The properties -/

/-- The record at `cur` is an override for the line. -/
def Overrides (irq : UInt8) (cur : ℕ) : Prop := mem cur = APIC_TYPE_INTERRUPT_OVERRIDE ∧ mem (cur + 3) = irq

/-- **The two walks** end, and read inside the table only. -/
structure WalksSafe (irq : UInt8) : Prop where
  parse_ends : ∀ s, ∃ fuel r, (parse_madt_walk mem fuel s).result = .ok r
  parse_inside : ∀ s fuel, (parse_madt_walk mem fuel s).All (· < header_length mem)
  gsi_ends : ∃ fuel r, (acpi_irq_to_gsi_walk mem fuel irq).result = .ok r
  gsi_inside : ∀ fuel, (acpi_irq_to_gsi_walk mem fuel irq).All (· < header_length mem)

/-- The chain of records gets to a record at `cur`. -/
def OnChain (cur : ℕ) : Prop :=
  Visits (next_record mem) (· < header_length mem) MADT_SIZE cur ∧ cur < header_length mem

/-- And none before it is an override for the line. -/
def OnChainOf (irq : UInt8) (cur : ℕ) : Prop :=
  Visits (next_record mem) (fun c => c < header_length mem ∧ ¬Overrides mem irq c) MADT_SIZE cur ∧
    cur < header_length mem

/-- **The records fit the table**: each has its type and a length other than zero inside it, and the fields that
are looked at for its type; a search for a line looks no further than the first override for it. -/
structure RecordsFit (irq : UInt8) : Prop where
  header : ∀ cur, OnChain mem cur → cur + 2 ≤ header_length mem ∧ mem (cur + 1) ≠ 0
  io_apic : ∀ cur, OnChain mem cur → mem cur = APIC_TYPE_IO_APIC → cur + 8 ≤ header_length mem
  override : ∀ cur, OnChainOf mem irq cur → mem cur = APIC_TYPE_INTERRUPT_OVERRIDE → cur + 4 ≤ header_length mem
  interrupt : ∀ cur, OnChainOf mem irq cur → Overrides mem irq cur → cur + 8 ≤ header_length mem

end Walk

/-! ### One turn -/

section Turn

variable {mem : ℕ → UInt8} {irq : UInt8} {cur a : ℕ} {s : Acpi} {P : ℕ → Prop}

theorem scan32_result : (scan32 mem a).result = .ok (read32 mem a) := by
  rw [scan32, Traced.result_tells_bind]
  rfl

theorem all_scan32 : (scan32 mem a).All (· < header_length mem) ↔ a + 4 ≤ header_length mem := by
  rw [scan32, Traced.all_bind_ok (Traced.result_tells _ _), Traced.all_tells, and_iff_left (Traced.all_pure _)]
  exact ⟨fun h => h 3 (by decide), fun h i hi => by omega⟩

/-- What a record adds to what is known. -/
def Acpi.counted (mem : ℕ → UInt8) (cur : ℕ) (s : Acpi) : Acpi :=
  if mem cur = APIC_TYPE_LOCAL_APIC then { s with n_cores := s.n_cores + 1 }
  else if mem cur = APIC_TYPE_IO_APIC then { s with ioapic_base := (read32 mem (cur + 4)).toUInt64 }
  else s

theorem madt_switch_result : (madt_switch mem cur s).result = .ok (s.counted mem cur) := by
  unfold madt_switch Acpi.counted
  split
  · rfl
  split
  · rw [Traced.result_bind, scan32_result]
    rfl
  · rfl

theorem all_madt_switch : (madt_switch mem cur s).All (· < header_length mem) ↔
    (mem cur = APIC_TYPE_IO_APIC → cur + 8 ≤ header_length mem) := by
  unfold madt_switch
  by_cases h0 : mem cur = APIC_TYPE_LOCAL_APIC
  · rw [if_pos h0]
    exact iff_of_true (Traced.all_pure _) fun h1 => absurd (h0.symm.trans h1) (by decide)
  rw [if_neg h0]
  by_cases h1 : mem cur = APIC_TYPE_IO_APIC
  · rw [if_pos h1, Traced.all_bind_ok scan32_result, all_scan32, and_iff_left (Traced.all_pure _)]
    exact ⟨fun h _ => h, fun h => h h1⟩
  · rw [if_neg h1]
    exact iff_of_true (Traced.all_pure _) fun h => absurd h h1

/-- The next record, and what is known by then. -/
def Acpi.advance (mem : ℕ → UInt8) (c : ℕ × Acpi) : ℕ × Acpi := (next_record mem c.1, c.2.counted mem c.1)

/-- **A turn of `parse_madt`** goes on while the record begins inside the table. -/
theorem parse_madt_turns :
    Turns (parse_madt_turn mem) (Acpi.advance mem) (fun c => c.1 < header_length mem) where
  goes := by
    rintro ⟨cur, s⟩ hc
    rw [parse_madt_turn, if_pos hc, Traced.result_tell_bind, Traced.result_bind, madt_switch_result]
    rfl
  stops := by
    rintro ⟨cur, s⟩ hc
    rw [parse_madt_turn, if_neg hc]
    exact ⟨s, rfl⟩

theorem all_parse_madt_turn : (parse_madt_turn mem (cur, s)).All (· < header_length mem) ↔
    (cur < header_length mem → cur + 2 ≤ header_length mem ∧
      (mem cur = APIC_TYPE_IO_APIC → cur + 8 ≤ header_length mem)) := by
  rw [parse_madt_turn]
  by_cases hc : cur < header_length mem
  · rw [if_pos hc, Traced.all_tell_bind, Traced.all_bind_ok madt_switch_result, all_madt_switch, Traced.all_tell_bind,
      and_iff_left (Traced.all_pure _), and_iff_right hc, and_comm]
    exact ⟨fun h _ => h, fun h => h hc⟩
  · rw [if_neg hc]
    exact iff_of_true (Traced.all_pure _) fun h => absurd h hc

theorem madt_source_result : (madt_source mem cur).result =
    .ok (if mem cur = APIC_TYPE_INTERRUPT_OVERRIDE then some (mem (cur + 3)) else none) := by
  unfold madt_source
  split <;> rfl

theorem all_madt_source : (madt_source mem cur).All (· < header_length mem) ↔
    (mem cur = APIC_TYPE_INTERRUPT_OVERRIDE → cur + 4 ≤ header_length mem) := by
  unfold madt_source
  by_cases h2 : mem cur = APIC_TYPE_INTERRUPT_OVERRIDE
  · rw [if_pos h2, Traced.all_tell_bind, and_iff_left (Traced.all_pure _)]
    exact ⟨fun h _ => h, fun h => h h2⟩
  · rw [if_neg h2]
    exact iff_of_true (Traced.all_pure _) fun h => absurd h h2

theorem overrides_iff : (if mem cur = APIC_TYPE_INTERRUPT_OVERRIDE then some (mem (cur + 3)) else none) = some irq ↔
    Overrides mem irq cur := by
  unfold Overrides
  split
  next h2 => simp [h2]
  next h2 => simp [h2]

/-- The turn that finds the line. -/
theorem acpi_irq_to_gsi_found (hc : cur < header_length mem) (ho : Overrides mem irq cur) :
    (acpi_irq_to_gsi_turn mem irq cur).result = .ok (.inl (read32 mem (cur + 4)).toUInt16) := by
  rw [acpi_irq_to_gsi_turn, if_pos hc, Traced.result_tell_bind, Traced.result_bind, madt_source_result]
  show (if (if _ then _ else _) = some irq then _ else _ : TableScan (UInt16 ⊕ ℕ)).result = _
  rw [if_pos (overrides_iff.2 ho), Traced.result_bind, scan32_result]
  rfl

theorem acpi_irq_to_gsi_end (hc : ¬cur < header_length mem) :
    (acpi_irq_to_gsi_turn mem irq cur).result = .ok (.inl irq.toUInt16) := by
  rw [acpi_irq_to_gsi_turn, if_neg hc]
  rfl

/-- **A turn of `acpi_irq_to_gsi`** goes on while the record begins inside the table and is no override for the
line. -/
theorem acpi_irq_to_gsi_turns : Turns (acpi_irq_to_gsi_turn mem irq) (next_record mem)
    (fun c => c < header_length mem ∧ ¬Overrides mem irq c) where
  goes := by
    rintro cur ⟨hc, hno⟩
    rw [acpi_irq_to_gsi_turn, if_pos hc, Traced.result_tell_bind, Traced.result_bind, madt_source_result]
    show (if (if _ then _ else _) = some irq then _ else _ : TableScan (UInt16 ⊕ ℕ)).result = _
    rw [if_neg (mt overrides_iff.1 hno)]
    rfl
  stops := by
    intro cur hstop
    by_cases hc : cur < header_length mem
    · have ho : Overrides mem irq cur := by
        by_contra hno
        exact hstop ⟨hc, hno⟩
      exact ⟨_, acpi_irq_to_gsi_found hc ho⟩
    · exact ⟨_, acpi_irq_to_gsi_end hc⟩

theorem all_acpi_irq_to_gsi_turn : (acpi_irq_to_gsi_turn mem irq cur).All (· < header_length mem) ↔
    (cur < header_length mem → (mem cur = APIC_TYPE_INTERRUPT_OVERRIDE → cur + 4 ≤ header_length mem) ∧
      (Overrides mem irq cur → cur + 8 ≤ header_length mem) ∧
      (¬Overrides mem irq cur → cur + 2 ≤ header_length mem)) := by
  rw [acpi_irq_to_gsi_turn]
  by_cases hc : cur < header_length mem
  · rw [if_pos hc, Traced.all_tell_bind, Traced.all_bind_ok madt_source_result, all_madt_source, and_iff_right hc]
    by_cases ho : Overrides mem irq cur
    · rw [if_pos (overrides_iff.2 ho), Traced.all_bind_ok scan32_result, all_scan32, and_iff_left (Traced.all_pure _)]
      exact ⟨fun h _ => ⟨h.1, fun _ => h.2, fun hno => absurd ho hno⟩, fun h => ⟨(h hc).1, (h hc).2.1 ho⟩⟩
    · rw [if_neg (mt overrides_iff.1 ho), Traced.all_tell_bind, and_iff_left (Traced.all_pure _)]
      exact ⟨fun h _ => ⟨h.1, fun hover => absurd hover ho, fun _ => h.2⟩, fun h => ⟨(h hc).1, (h hc).2.2 ho⟩⟩
  · rw [if_neg hc]
    exact iff_of_true (Traced.all_pure _) fun h => absurd h hc

end Turn

/-! ### Both walks -/

section Safe

variable {mem : ℕ → UInt8} {irq : UInt8}

theorem next_record_lt {cur : ℕ} : cur < next_record mem cur ↔ mem (cur + 1) ≠ 0 := by
  rw [next_record, ne_eq, ← UInt8.toNat_inj, UInt8.toNat_zero]
  omega

/-- The walk of `parse_madt`, without what it knows. -/
theorem visits_parse_madt (s : Acpi) {cur : ℕ} :
    Visits (next_record mem) (· < header_length mem) MADT_SIZE cur ↔
      ∃ t, Visits (Acpi.advance mem) (fun c => c.1 < header_length mem) (MADT_SIZE, s) (cur, t) := by
  refine (visits_image (f := Acpi.advance mem) (P := fun c => c.1 < header_length mem) (g := Prod.fst)
    (a := (MADT_SIZE, s)) (fun _ => rfl) fun _ => Iff.rfl).trans ⟨?_, ?_⟩
  · rintro ⟨⟨cur, t⟩, h, rfl⟩
    exact ⟨t, h⟩
  · rintro ⟨t, h⟩
    exact ⟨(cur, t), h, rfl⟩

/-- **`parse_madt` ends** if and only if each record it gets to has a length. -/
theorem parse_madt_ends_iff (s : Acpi) : (∃ fuel r, (parse_madt_walk mem fuel s).result = .ok r) ↔
    ∀ cur, OnChain mem cur → mem (cur + 1) ≠ 0 := by
  have himage : ∀ n, ((Acpi.advance mem)^[n] (MADT_SIZE, s)).1 = (next_record mem)^[n] MADT_SIZE :=
    iterate_image (g := Prod.fst) fun _ => rfl
  refine (loop_ends_iff parse_madt_turns).trans ?_
  simp only [himage]
  refine (stops_iff (f := next_record mem) (P := (· < header_length mem)) (fun _ => Nat.le_add_right _ _)
    fun _ hc => hc).trans ?_
  simp only [OnChain, next_record_lt, and_imp]

/-- **What it reads** is inside the table if and only if what is looked at of each record is. -/
theorem parse_madt_inside_iff (s : Acpi) : (∀ fuel, (parse_madt_walk mem fuel s).All (· < header_length mem)) ↔
    ∀ cur, OnChain mem cur → cur + 2 ≤ header_length mem ∧
      (mem cur = APIC_TYPE_IO_APIC → cur + 8 ≤ header_length mem) := by
  refine (all_loop parse_madt_turns).trans ⟨fun h cur hon => ?_, fun h c hc => ?_⟩
  · obtain ⟨t, ht⟩ := (visits_parse_madt s).1 hon.1
    exact all_parse_madt_turn.1 (h _ ht) hon.2
  · obtain ⟨cur, t⟩ := c
    exact all_parse_madt_turn.2 fun hlt => h cur ⟨(visits_parse_madt s).2 ⟨t, hc⟩, hlt⟩

/-- What a search for a line gets to is on the chain. -/
theorem OnChainOf.onChain {cur : ℕ} (h : OnChainOf mem irq cur) : OnChain mem cur :=
  ⟨h.1.mono fun _ hc => hc.1, h.2⟩

/-- **A search** ends when each record has a length. -/
theorem acpi_irq_to_gsi_ends (h : ∀ cur, OnChain mem cur → mem (cur + 1) ≠ 0) :
    ∃ fuel r, (acpi_irq_to_gsi_walk mem fuel irq).result = .ok r :=
  (loop_ends_iff acpi_irq_to_gsi_turns).2 <|
    (stops_iff (f := next_record mem) (P := fun c => c < header_length mem ∧ ¬Overrides mem irq c)
      (fun _ => Nat.le_add_right _ _) fun _ hc => hc.1).2 fun cur hv hc =>
        next_record_lt.2 (h cur ⟨hv.mono fun _ hc => hc.1, hc.1⟩)

theorem acpi_irq_to_gsi_inside_iff : (∀ fuel, (acpi_irq_to_gsi_walk mem fuel irq).All (· < header_length mem)) ↔
    ∀ cur, OnChainOf mem irq cur → (mem cur = APIC_TYPE_INTERRUPT_OVERRIDE → cur + 4 ≤ header_length mem) ∧
      (Overrides mem irq cur → cur + 8 ≤ header_length mem) ∧
      (¬Overrides mem irq cur → cur + 2 ≤ header_length mem) := by
  refine (all_loop acpi_irq_to_gsi_turns).trans ⟨fun h cur hon => ?_, fun h cur hv => ?_⟩
  · exact all_acpi_irq_to_gsi_turn.1 (h cur hon.1) hon.2
  · exact all_acpi_irq_to_gsi_turn.2 fun hlt => h cur ⟨hv, hlt⟩

/-- **For every table** and every line: the walks end and stay inside the table if and only if the records fit it. -/
theorem madt_walks_iff (mem : ℕ → UInt8) (irq : UInt8) : WalksSafe mem irq ↔ RecordsFit mem irq := by
  constructor
  · intro h
    have hlen := (parse_madt_ends_iff ⟨0, 0, 0⟩).1 (h.parse_ends _)
    have hparse := (parse_madt_inside_iff ⟨0, 0, 0⟩).1 (h.parse_inside _)
    have hgsi := acpi_irq_to_gsi_inside_iff.1 h.gsi_inside
    exact ⟨fun cur hc => ⟨(hparse cur hc).1, hlen cur hc⟩, fun cur hc => (hparse cur hc).2,
      fun cur hc => (hgsi cur hc).1, fun cur hc => (hgsi cur hc).2.1⟩
  · intro h
    have hlen : ∀ cur, OnChain mem cur → mem (cur + 1) ≠ 0 := fun cur hc => (h.header cur hc).2
    refine ⟨fun s => (parse_madt_ends_iff s).2 hlen, fun s => (parse_madt_inside_iff s).2 fun cur hc =>
      ⟨(h.header cur hc).1, h.io_apic cur hc⟩, acpi_irq_to_gsi_ends hlen, acpi_irq_to_gsi_inside_iff.2 fun cur hc =>
      ⟨h.override cur hc, h.interrupt cur hc, fun _ => (h.header cur hc.onChain).1⟩⟩

end Safe

/-- A table of 46 bytes with a valid checksum: its one record has no length. -/
def emptyRecord (i : ℕ) : UInt8 := if i = 4 then 46 else if i = 9 then 0xD2 else 0

/-- The walk over it does not end. -/
theorem not_madt_walks : ¬∀ (mem : ℕ → UInt8) (irq : UInt8), verify_checksum mem = true → WalksSafe mem irq := by
  intro h
  have hends := (h emptyRecord 0 (by decide +kernel)).parse_ends ⟨0, 0, 0⟩
  refine (parse_madt_ends_iff _).1 hends MADT_SIZE ⟨.refl _ _ _, ?_⟩ rfl
  decide

end Iridium
