import Iridium.Firmware.Madt

/-!
# The redirection entries of the legacy interrupts

`arch/x86/ioapic.c` and `init_irqs` of `intr/intr.c`. A line is connected to a global interrupt, and a global
interrupt to a pin of the I/O APIC whose interrupts begin at the greatest base not above it. `parse_madt`
keeps the address of the last I/O APIC it finds and no base; `acpi_irq_to_gsi` narrows the interrupt to 16 bits and
`ioapic_set_entry` to 8, which it takes for the pin.

So the entry is the right one when the last I/O APIC is the right one, its base is a multiple of 128, which does
not show in the 8 bits of a register number, and the pin is below 120, where these numbers end (`irqs_right_iff`).
-/

namespace Iridium

open Lib

def IOWIN : UInt64 := 0x10
def IOAPICVER : UInt8 := 0x01
def IOREDTBL : UInt8 := 0x10

/-- The static `ioapic_base` of `ioapic.c`, and the words stored to device memory, with their addresses. -/
structure Ioapic where
  ioapic_base : UInt64
  writes : List (UInt64 × UInt32)

/-- `write`. -/
def Ioapic.write (s : Ioapic) (reg : UInt8) (value : UInt32) : Ioapic :=
  { s with writes := s.writes ++ [(s.ioapic_base, reg.toUInt32), (s.ioapic_base + IOWIN, value)] }

/-- `ioapic_set_entry`. -/
def ioapic_set_entry (s : Ioapic) (index : UInt8) (data : UInt64) : Ioapic :=
  let s := s.write (IOREDTBL + index * 2) data.toUInt32
  s.write (IOREDTBL + index * 2 + 1) (data >>> 32).toUInt32

/-- The loop of `ioapic_init` over the first `n` pins. -/
def ioapic_mask (s : Ioapic) : ℕ → Ioapic
  | 0 => s
  | n + 1 => ioapic_set_entry (ioapic_mask s n) (UInt8.ofNat n) ((1 : UInt64) <<< 16)

/-- `ioapic_init`, with what is read of the version register. -/
def ioapic_init (s : Ioapic) (acpi : Acpi) (version : UInt32) : Ioapic :=
  let s := { s with ioapic_base := acpi.ioapic_base }
  let s := { s with writes := s.writes ++ [(s.ioapic_base, IOAPICVER.toUInt32)] }
  let n_pins : UInt16 := ((version >>> 16) &&& 0xFF).toUInt16 + 1
  ioapic_mask s n_pins.toNat

/-- `acpi_init`, from where the table is found. -/
def acpi_init (mem : ℕ → UInt8) (acpi : Acpi) : Kern Acpi := do
  if !verify_checksum mem then throw .stopped
  parse_madt mem acpi

/-- `init_irqs`, but for the interrupt descriptors: the timer, and the keyboard. -/
def init_irqs (mem : ℕ → UInt8) (s : Ioapic) : Kern Ioapic := do
  let timer ← acpi_irq_to_gsi mem 0
  let s := ioapic_set_entry s timer.toUInt8 0x20
  let keyboard ← acpi_irq_to_gsi mem 1
  return ioapic_set_entry s keyboard.toUInt8 0x21

/-! ### The table -/

section Table

variable (mem : ℕ → UInt8)

/-- The records from `cur` to the end of the table. -/
inductive Chain : ℕ → List ℕ → Prop where
  | done {cur : ℕ} : header_length mem ≤ cur → Chain cur []
  | record {cur : ℕ} {rs : List ℕ} : cur < header_length mem → Chain (next_record mem cur) rs → Chain cur (cur :: rs)

/-- **A well-formed table** with its records: they fill it, and have the length of their type. -/
structure WellFormedMadt (rs : List ℕ) : Prop where
  checksum : verify_checksum mem = true
  chain : Chain mem MADT_SIZE rs
  inside : ∀ r ∈ rs, next_record mem r ≤ header_length mem
  length : ∀ r ∈ rs, 2 ≤ mem (r + 1)
  io_apic : ∀ r ∈ rs, mem r = APIC_TYPE_IO_APIC → 12 ≤ mem (r + 1)
  override : ∀ r ∈ rs, mem r = APIC_TYPE_INTERRUPT_OVERRIDE → 10 ≤ mem (r + 1)

/-- The records of I/O APICs. -/
def io_apics (rs : List ℕ) : List ℕ := rs.filter fun r => mem r = APIC_TYPE_IO_APIC

/-- `io_apic_addr`. -/
def io_apic_addr (r : ℕ) : UInt64 := (read32 mem (r + 4)).toUInt64

/-- `global_system_interrupt_base`. -/
def gsi_base (r : ℕ) : UInt32 := read32 mem (r + 8)

instance (irq : UInt8) (r : ℕ) : Decidable (Overrides mem irq r) := inferInstanceAs (Decidable (_ ∧ _))

/-- The global interrupt of a line, by the first override for it. -/
def gsi_of (rs : List ℕ) (irq : UInt8) : UInt32 :=
  match rs.find? fun r => Overrides mem irq r with
  | some r => read32 mem (r + 4)
  | none => irq.toUInt32

/-- The I/O APIC with the greatest base that is not above the interrupt. -/
structure ServesGsi (rs : List ℕ) (gsi : UInt32) (r : ℕ) : Prop where
  listed : r ∈ io_apics mem rs
  le : gsi_base mem r ≤ gsi
  greatest : ∀ r' ∈ io_apics mem rs, gsi_base mem r' ≤ gsi → gsi_base mem r' ≤ gsi_base mem r

/-- The words stored set entry `n` of the I/O APIC at this address. -/
def SetsEntry (ws : List (UInt64 × UInt32)) (addr : UInt64) (n : ℕ) (data : UInt64) : Prop :=
  ∃ low high : UInt32, low.toNat = 0x10 + 2 * n ∧ high.toNat = 0x10 + 2 * n + 1 ∧
    ws = [(addr, low), (addr + IOWIN, data.toUInt32), (addr, high), (addr + IOWIN, (data >>> 32).toUInt32)]

/-- They set the entry of the line. -/
def EntryRight (rs : List ℕ) (irq : UInt8) (data : UInt64) (ws : List (UInt64 × UInt32)) : Prop :=
  ∃ r, ServesGsi mem rs (gsi_of mem rs irq) r ∧
    SetsEntry ws (io_apic_addr mem r) ((gsi_of mem rs irq).toNat - (gsi_base mem r).toNat) data

/-- **Both entries are right.** -/
def IrqsRight (rs : List ℕ) (ws : List (UInt64 × UInt32)) : Prop :=
  ∃ ws₀ ws₁, ws = ws₀ ++ ws₁ ∧ EntryRight mem rs 0 0x20 ws₀ ∧ EntryRight mem rs 1 0x21 ws₁

/-- The last I/O APIC is at the address of the one that serves the line, whose base does not show in a register
number, and whose pin does. -/
def EntryFits (rs : List ℕ) (irq : UInt8) : Prop :=
  ∃ r, ServesGsi mem rs (gsi_of mem rs irq) r ∧
    (∃ last, (io_apics mem rs).getLast? = some last ∧ io_apic_addr mem last = io_apic_addr mem r) ∧
    (gsi_base mem r).toNat % 128 = 0 ∧ (gsi_of mem rs irq).toNat - (gsi_base mem r).toNat < 120

end Table

section Chain

variable {mem : ℕ → UInt8} {cur fuel : ℕ} {rs : List ℕ} {s : Acpi} {irq : UInt8}

/-- **`parse_madt`** takes the records one after the other. -/
theorem parse_madt_chain (h : Chain mem cur rs) (hf : rs.length < fuel) :
    (Traced.loop .endless (parse_madt_turn mem) fuel (cur, s)).result =
      .ok (rs.foldl (fun s r => s.counted mem r) s) := by
  induction h generalizing fuel s with
  | @done cur hend =>
    obtain ⟨fuel, rfl⟩ := Nat.exists_eq_succ_of_ne_zero (Nat.ne_zero_of_lt hf)
    rw [Traced.loop, parse_madt_turn, if_neg (Nat.not_lt.2 hend)]
    rfl
  | @record cur rs hc _ ih =>
    obtain ⟨fuel, rfl⟩ := Nat.exists_eq_succ_of_ne_zero (Nat.ne_zero_of_lt hf)
    rw [parse_madt_turns.result_goes hc]
    exact ih (Nat.lt_of_succ_lt_succ hf)

/-- **`acpi_irq_to_gsi`** answers with the interrupt of the first override, narrowed. -/
theorem acpi_irq_to_gsi_chain (h : Chain mem cur rs) (hf : rs.length < fuel) :
    (Traced.loop .endless (acpi_irq_to_gsi_turn mem irq) fuel cur).result = .ok (gsi_of mem rs irq).toUInt16 := by
  induction h generalizing fuel with
  | @done cur hend =>
    obtain ⟨fuel, rfl⟩ := Nat.exists_eq_succ_of_ne_zero (Nat.ne_zero_of_lt hf)
    rw [Traced.loop, Traced.result_bind, acpi_irq_to_gsi_end (Nat.not_lt.2 hend), gsi_of, List.find?_nil]
    exact congrArg Except.ok (UInt8.toUInt16_toUInt32 irq).symm
  | @record cur rs hc _ ih =>
    obtain ⟨fuel, rfl⟩ := Nat.exists_eq_succ_of_ne_zero (Nat.ne_zero_of_lt hf)
    by_cases ho : Overrides mem irq cur
    · rw [Traced.loop, Traced.result_bind, acpi_irq_to_gsi_found hc ho, gsi_of, List.find?_cons_of_pos (by simpa using ho)]
      rfl
    · rw [acpi_irq_to_gsi_turns.result_goes ⟨hc, ho⟩, ih (Nat.lt_of_succ_lt_succ hf), gsi_of, gsi_of,
        List.find?_cons_of_neg (by simpa using ho)]

/-- **What is kept** of the I/O APICs is the address of the last. -/
theorem foldl_ioapic_base : (rs.foldl (fun s r => s.counted mem r) s).ioapic_base =
    ((io_apics mem rs).getLast?.map (io_apic_addr mem)).getD s.ioapic_base := by
  induction rs using List.reverseRecOn with
  | nil => rfl
  | append_singleton rs r ih =>
    rw [List.foldl_append, List.foldl_cons, List.foldl_nil, io_apics, List.filter_append]
    rw [io_apics] at ih
    by_cases h1 : mem r = APIC_TYPE_IO_APIC
    · have h0 : mem r ≠ APIC_TYPE_LOCAL_APIC := fun h0 => absurd (h0.symm.trans h1) (by decide)
      rw [Acpi.counted, if_neg h0, if_pos h1, List.filter_cons_of_pos (by simpa using h1), List.filter_nil,
        List.getLast?_concat]
      rfl
    · rw [List.filter_cons_of_neg (by simpa using h1), List.filter_nil, List.append_nil, ← ih, Acpi.counted, if_neg h1]
      split <;> rfl

/-- The records are no more than the bytes. -/
theorem Chain.length_le (h : Chain mem cur rs) (hin : ∀ r ∈ rs, next_record mem r ≤ header_length mem)
    (hlen : ∀ r ∈ rs, 2 ≤ mem (r + 1)) : rs.length ≤ header_length mem := by
  have key : rs = [] ∨ cur + rs.length ≤ header_length mem := by
    induction h with
    | done => exact .inl rfl
    | @record cur rs hc _ ih =>
      have hnext := hin cur List.mem_cons_self
      have h2 := UInt8.le_iff_toNat_le.1 (hlen cur List.mem_cons_self)
      have hstep : cur + 1 ≤ next_record mem cur := Nat.add_le_add_left (Nat.le_trans (by decide) h2) cur
      rcases ih (fun r hr => hin r (List.mem_cons_of_mem _ hr)) fun r hr => hlen r (List.mem_cons_of_mem _ hr) with
        rfl | hrest
      · exact .inr (Nat.le_trans hstep hnext)
      · rw [List.length_cons]
        exact .inr (by omega)
  rcases key with rfl | hle
  · exact Nat.zero_le _
  · omega

/-- **Booting** keeps the last I/O APIC. -/
theorem WellFormedMadt.acpi_init (h : WellFormedMadt mem rs) (s : Acpi) : ∃ acpi, acpi_init mem s = .ok acpi ∧
    acpi.ioapic_base = ((io_apics mem rs).getLast?.map (io_apic_addr mem)).getD s.ioapic_base := by
  have hlen := Nat.lt_succ_of_le (h.chain.length_le h.inside h.length)
  refine ⟨_, ?_, foldl_ioapic_base (s := { s with lapic_base := (read32 mem 36).toUInt64 })⟩
  rw [Iridium.acpi_init, h.checksum]
  exact parse_madt_chain h.chain hlen

theorem WellFormedMadt.acpi_irq_to_gsi (h : WellFormedMadt mem rs) (irq : UInt8) :
    acpi_irq_to_gsi mem irq = .ok (gsi_of mem rs irq).toUInt16 :=
  acpi_irq_to_gsi_chain h.chain (Nat.lt_succ_of_le (h.chain.length_le h.inside h.length))

end Chain

section Entry

variable {mem : ℕ → UInt8} {rs : List ℕ} {irq index : UInt8} {data b addr : UInt64} {n : ℕ}

/-- The words stored by `ioapic_set_entry`. -/
def entry_writes (b : UInt64) (index : UInt8) (data : UInt64) : List (UInt64 × UInt32) :=
  [(b, (IOREDTBL + index * 2).toUInt32), (b + IOWIN, data.toUInt32), (b, (IOREDTBL + index * 2 + 1).toUInt32),
    (b + IOWIN, (data >>> 32).toUInt32)]

theorem ioapic_set_entry_eq (s : Ioapic) (index : UInt8) (data : UInt64) : ioapic_set_entry s index data =
    { s with writes := s.writes ++ entry_writes s.ioapic_base index data } := by
  simp [ioapic_set_entry, Ioapic.write, entry_writes]

theorem ioapic_init_base (s : Ioapic) (acpi : Acpi) (version : UInt32) :
    (ioapic_init s acpi version).ioapic_base = acpi.ioapic_base := by
  have hmask : ∀ (s : Ioapic) n, (ioapic_mask s n).ioapic_base = s.ioapic_base := fun s n => by
    induction n with
    | zero => rfl
    | succ n ih => exact ih
  exact hmask _ _

/-- **Enabling** the lines sets two entries of the I/O APIC that was kept. -/
theorem WellFormedMadt.init_irqs {s : Ioapic} (h : WellFormedMadt mem rs) (hs : s.ioapic_base = b) :
    init_irqs mem s = .ok { s with writes := s.writes ++ (entry_writes b (gsi_of mem rs 0).toUInt16.toUInt8 0x20 ++
      entry_writes b (gsi_of mem rs 1).toUInt16.toUInt8 0x21) } := by
  subst hs
  rw [Iridium.init_irqs, h.acpi_irq_to_gsi, h.acpi_irq_to_gsi]
  show Except.ok (ioapic_set_entry (ioapic_set_entry _ _ _) _ _) = _
  rw [ioapic_set_entry_eq, ioapic_set_entry_eq]
  dsimp only
  rw [List.append_assoc]

/-- **The entry set** is the one with the number whose registers these are. -/
theorem setsEntry_iff : SetsEntry (entry_writes b index data) addr n data ↔
    b = addr ∧ (0x10 + 2 * index.toNat) % 256 = 0x10 + 2 * n := by
  have hlow : (IOREDTBL + index * 2).toUInt32.toNat = (0x10 + 2 * index.toNat) % 256 := by
    rw [UInt8.toNat_toUInt32, UInt8.toNat_add, UInt8.toNat_mul]
    show (16 + index.toNat * 2 % 256) % 256 = _
    omega
  have hhigh : (IOREDTBL + index * 2 + 1).toUInt32.toNat = (0x11 + 2 * index.toNat) % 256 := by
    rw [UInt8.toNat_toUInt32, UInt8.toNat_add, UInt8.toNat_add, UInt8.toNat_mul]
    show ((16 + index.toNat * 2 % 256) % 256 + 1) % 256 = _
    omega
  constructor
  · rintro ⟨low, high, hl, -, he⟩
    rw [entry_writes, List.cons.injEq, Prod.mk.injEq] at he
    obtain ⟨⟨hb, hlow'⟩, -⟩ := he
    exact ⟨hb, by rw [← hlow, hlow', hl]⟩
  · rintro ⟨rfl, he⟩
    exact ⟨_, _, hlow.trans he, by rw [hhigh]; omega, rfl⟩

/-- **One entry.** -/
theorem entryRight_iff (hb : b = ((io_apics mem rs).getLast?.map (io_apic_addr mem)).getD addr) :
    EntryRight mem rs irq data (entry_writes b (gsi_of mem rs irq).toUInt16.toUInt8 data) ↔ EntryFits mem rs irq := by
  refine exists_congr fun r => and_congr_right fun hr => ?_
  -- there is an I/O APIC, so there is a last one
  obtain ⟨last, hlast⟩ : ∃ last, (io_apics mem rs).getLast? = some last :=
    Option.ne_none_iff_exists'.1 fun h => by
      rw [List.getLast?_eq_none_iff] at h
      exact absurd hr.listed (by rw [h]; exact List.not_mem_nil)
  rw [hlast] at hb
  obtain rfl : b = io_apic_addr mem last := hb
  have hle := UInt32.le_iff_toNat_le.1 hr.le
  rw [setsEntry_iff, hlast]
  have hindex : (gsi_of mem rs irq).toUInt16.toUInt8.toNat = (gsi_of mem rs irq).toNat % 256 := by
    rw [UInt16.toNat_toUInt8, UInt32.toNat_toUInt16]
    omega
  rw [hindex]
  constructor
  · rintro ⟨haddr, he⟩
    exact ⟨⟨last, rfl, haddr⟩, by omega, by omega⟩
  · rintro ⟨⟨l, hl, haddr⟩, h128, h120⟩
    obtain rfl := Option.some.inj hl
    exact ⟨haddr, by omega⟩

/-- **Both entries.** -/
theorem irqsRight_iff {ws₀ ws₁ : List (UInt64 × UInt32)} (h : ws₀.length = 4) : IrqsRight mem rs (ws₀ ++ ws₁) ↔
    EntryRight mem rs 0 0x20 ws₀ ∧ EntryRight mem rs 1 0x21 ws₁ := by
  constructor
  · rintro ⟨us₀, us₁, he, h₀, h₁⟩
    have hlen : us₀.length = 4 := by
      obtain ⟨r, -, low, high, -, -, rfl⟩ := h₀
      rfl
    obtain ⟨rfl, rfl⟩ := List.append_inj he (h.trans hlen.symm)
    exact ⟨h₀, h₁⟩
  · rintro ⟨h₀, h₁⟩
    exact ⟨ws₀, ws₁, rfl, h₀, h₁⟩

end Entry

/-! ### Results -/

/-- **For every well-formed table**: the kernel boots, and sets the right entries if and only if they fit. -/
theorem irqs_right_iff {mem : ℕ → UInt8} {rs : List ℕ} (h : WellFormedMadt mem rs) (acpi₀ : Acpi) (s : Ioapic)
    (version : UInt32) : ∃ acpi ws, acpi_init mem acpi₀ = .ok acpi ∧
      init_irqs mem (ioapic_init s acpi version) =
        .ok { ioapic_init s acpi version with writes := (ioapic_init s acpi version).writes ++ ws } ∧
      (IrqsRight mem rs ws ↔ EntryFits mem rs 0 ∧ EntryFits mem rs 1) := by
  obtain ⟨acpi, hacpi, hbase⟩ := h.acpi_init acpi₀
  refine ⟨acpi, _, hacpi, h.init_irqs (ioapic_init_base s acpi version), ?_⟩
  rw [irqsRight_iff rfl, entryRight_iff hbase, entryRight_iff hbase]

/-- A table of these records. -/
def tableOf (sum : UInt8) (records : List UInt8) (i : ℕ) : UInt8 :=
  if i = 4 then UInt8.ofNat (MADT_SIZE + records.length) else if i = 9 then sum
  else if i < MADT_SIZE then 0 else records.getD (i - MADT_SIZE) 0

/-- One I/O APIC, and an override that connects the timer to its pin 2. -/
def oneIoapic : ℕ → UInt8 :=
  tableOf 0xe5 [1, 12, 0, 0, 0, 0, 0xC0, 0xFE, 0, 0, 0, 0, 2, 10, 0, 0, 2, 0, 0, 0, 0, 0]

theorem wellFormed_oneIoapic : WellFormedMadt oneIoapic [44, 56] where
  checksum := by decide +kernel
  chain := .record (by decide +kernel) (.record (by decide +kernel) (.done (by decide +kernel)))
  inside := by decide +kernel
  length := by decide +kernel
  io_apic := by decide +kernel
  override := by decide +kernel

/-- The usual machine has its entries right. -/
theorem irqs_right_single : ∃ acpi ws, acpi_init oneIoapic ⟨0, 0, 0⟩ = .ok acpi ∧
    init_irqs oneIoapic (ioapic_init ⟨0, []⟩ acpi 0x170011) = .ok { ioapic_init ⟨0, []⟩ acpi 0x170011 with
      writes := (ioapic_init ⟨0, []⟩ acpi 0x170011).writes ++ ws } ∧ IrqsRight oneIoapic [44, 56] ws := by
  obtain ⟨acpi, ws, hacpi, hirqs, hright⟩ := irqs_right_iff wellFormed_oneIoapic ⟨0, 0, 0⟩ ⟨0, []⟩ 0x170011
  have hlist : io_apics oneIoapic [44, 56] = [44] := by decide +kernel
  have hbase : gsi_base oneIoapic 44 = 0 := by decide +kernel
  have hserves : ∀ gsi : UInt32, ServesGsi oneIoapic [44, 56] gsi 44 := fun gsi => by
    refine ⟨by rw [hlist]; exact List.mem_singleton_self 44, by rw [hbase]; exact UInt32.zero_le, fun r hr _ => ?_⟩
    rw [hlist, List.mem_singleton] at hr
    rw [hr]
    exact UInt32.le_refl _
  exact ⟨acpi, ws, hacpi, hirqs, hright.2 ⟨⟨44, hserves _, ⟨44, by decide +kernel, rfl⟩, by decide +kernel,
    by decide +kernel⟩, 44, hserves _, ⟨44, by decide +kernel, rfl⟩, by decide +kernel, by decide +kernel⟩⟩

/-- Two I/O APICs: the interrupts of the second begin at 24. -/
def twoIoapics : ℕ → UInt8 :=
  tableOf 0xfd [1, 12, 0, 0, 0, 0, 0xC0, 0xFE, 0, 0, 0, 0, 1, 12, 1, 0, 0, 0x10, 0xC0, 0xFE, 24, 0, 0, 0]

theorem wellFormed_twoIoapics : WellFormedMadt twoIoapics [44, 56] where
  checksum := by decide +kernel
  chain := .record (by decide +kernel) (.record (by decide +kernel) (.done (by decide +kernel)))
  inside := by decide +kernel
  length := by decide +kernel
  io_apic := by decide +kernel
  override := by decide +kernel

/-- The keyboard is connected to the first, and its entry is set in the second. -/
theorem not_irqs_right : ¬∀ (mem : ℕ → UInt8) (rs : List ℕ) (acpi₀ acpi : Acpi) (s : Ioapic) (version : UInt32)
    (ws : List (UInt64 × UInt32)), WellFormedMadt mem rs → acpi_init mem acpi₀ = .ok acpi →
      init_irqs mem (ioapic_init s acpi version) =
        .ok { ioapic_init s acpi version with writes := (ioapic_init s acpi version).writes ++ ws } →
      IrqsRight mem rs ws := by
  intro hall
  obtain ⟨acpi, hacpi, hbase⟩ := wellFormed_twoIoapics.acpi_init ⟨0, 0, 0⟩
  have hright := hall _ _ _ _ ⟨0, []⟩ 0x170011 _ wellFormed_twoIoapics hacpi
    (wellFormed_twoIoapics.init_irqs (ioapic_init_base ⟨0, []⟩ acpi 0x170011))
  obtain ⟨r, hr, ⟨last, hlast, haddr⟩, -⟩ := (entryRight_iff hbase).1 ((irqsRight_iff rfl).1 hright).2
  have hlist : io_apics twoIoapics [44, 56] = [44, 56] := by decide +kernel
  have hgsi : gsi_of twoIoapics [44, 56] 1 = 1 := by decide +kernel
  have hmem := hr.listed
  have hle := hr.le
  rw [hlist] at hmem hlast
  rw [hgsi] at hle
  obtain rfl : 56 = last := Option.some.inj hlast
  -- the first serves the interrupt, and has another address
  rcases List.mem_pair.1 hmem with rfl | rfl
  · exact absurd haddr (by decide +kernel)
  · exact absurd hle (by decide +kernel)

end Iridium
