import Mathlib.Algebra.Group.Nat.Defs
import Mathlib.Data.List.Induction
import Mathlib.Tactic.Common

/-!
# The devices on the PCI bus

`bus/pci/pci.c` and `bus/pci/class.c`. A word of the configuration space is read in two steps: its address is written
to one port, and 4 bytes with the word in them are read from another. `pci_dump` asks every function of every device
of every bus in this way. What it prints is a list of the devices of the configuration space, each once and in order,
with its vendor and the name of its class (`pci_dump_lists`).
-/

namespace Iridium

/-! ### The ports -/

/-- A configuration space, 4 bytes by 4: by bus, device, function and register. -/
abbrev ConfigSpace := ℕ → ℕ → ℕ → ℕ → UInt32

/-- The bridge to the bus, with the address that was written to it. -/
structure PciBridge where
  conf : ConfigSpace
  config_address : BitVec 32

def CONFIG_ADDRESS : UInt16 := 0xCF8
def CONFIG_DATA : UInt16 := 0xCFC

/-- `outportl`. -/
def outportl (h : PciBridge) (port : UInt16) (data : UInt32) : PciBridge :=
  if port = CONFIG_ADDRESS then { h with config_address := data.toBitVec } else h

/-- `inportl`. The bridge takes the address apart: bus, device, function and register, below a bit that says that it
is meant. -/
def inportl (h : PciBridge) (port : UInt16) : UInt32 :=
  if port = CONFIG_DATA ∧ h.config_address.getLsbD 31 = true then
    h.conf (h.config_address.extractLsb' 16 8).toNat (h.config_address.extractLsb' 11 5).toNat
      (h.config_address.extractLsb' 8 3).toNat (h.config_address.extractLsb' 2 6).toNat
  else 0xFFFFFFFF

/-! ### The code -/

/-- The address that `pci_config_read_word` writes. -/
def config_addr (bus slot func offset : UInt8) : UInt32 :=
  (bus.toUInt32 <<< 16) ||| (slot.toUInt32 <<< 11) ||| (func.toUInt32 <<< 8) ||| (offset.toUInt32 &&& 0xFC) |||
    0x80000000

/-- `pci_config_read_word`. -/
def pci_config_read_word (h : PciBridge) (bus slot func offset : UInt8) : UInt16 × PciBridge :=
  let h := outportl h CONFIG_ADDRESS (config_addr bus slot func offset)
  (((inportl h CONFIG_DATA >>> ((offset &&& 2) * 8).toUInt32) &&& 0xFFFF).toUInt16, h)

def pci_read_vendor (h : PciBridge) (bus slot func : UInt8) : UInt16 × PciBridge :=
  pci_config_read_word h bus slot func 0x0

def pci_read_class (h : PciBridge) (bus slot func : UInt8) : UInt16 × PciBridge :=
  let (w, h) := pci_config_read_word h bus slot func 0xA
  (w >>> 8, h)

def PCI_BC_MASS_STORAGE_CONTROLLER : UInt16 := 0x1
def PCI_BC_NETWORK_CONTROLLER : UInt16 := 0x2
def PCI_BC_DISPLAY_CONTROLLER : UInt16 := 0x3
def PCI_BC_WIRELESS_CONTROLLER : UInt16 := 0xD

/-- `PCI_CLASS_STRINGS`; the pointers that are not given are `NULL`. -/
def PCI_CLASS_STRINGS (i : UInt16) : Option String :=
  if i = 0x0 then some "PCI_BC_NULL"
  else if i = PCI_BC_MASS_STORAGE_CONTROLLER then some "MASS STORAGE CONTROLLER"
  else if i = PCI_BC_NETWORK_CONTROLLER then some "NETWORK CONTROLLER"
  else if i = PCI_BC_DISPLAY_CONTROLLER then some "DISPLAY CONTROLLER"
  else if i = PCI_BC_WIRELESS_CONTROLLER then some "WIRELESS CONTROLLER"
  else if i = 0xFF then some "ERR"
  else none

/-- `pci_is_class_used`. -/
def pci_is_class_used (cls : UInt16) : Bool :=
  cls == PCI_BC_MASS_STORAGE_CONTROLLER || cls == PCI_BC_NETWORK_CONTROLLER || cls == PCI_BC_DISPLAY_CONTROLLER ||
    cls == PCI_BC_WIRELESS_CONTROLLER

/-- A line that is printed: its format, and the argument. -/
inductive PciLine where
  | hex (format : String) (n : UInt16)
  | str (format : String) (s : Option String)
  deriving DecidableEq

/-- The two lines for a device. -/
def vendor_line (vendor : UInt16) : PciLine :=
  .hex "\x1B[0;36m[PCI]: \x1B[1;33mDevice with vendor ID %x found\n" vendor

def class_line (cls : UInt16) : PciLine :=
  .str "\x1B[0;36m[PCI]: \x1B[1;33mDevice type: %s\n\n" (PCI_CLASS_STRINGS cls)

/-- What `pci_dump` does for one function of a device. -/
def pci_dump_func (bus slot func : UInt8) (s : PciBridge × List PciLine) : PciBridge × List PciLine :=
  let (h, out) := s
  let (cls, h) := pci_read_class h bus slot func
  let (vendor, h) := pci_read_vendor h bus slot func
  if vendor = 0xFFFF ∨ pci_is_class_used cls = false then (h, out)
  else
    let (vendor, h) := pci_read_vendor h bus slot func
    (h, out ++ [vendor_line vendor, class_line cls])

def PCI_MAX_BUS : ℕ := 256
def PCI_MAX_SLOTS : ℕ := 32
def PCI_MAX_FUNCS : ℕ := 8

/-- `for (i = 0; i < n; ++i)`. -/
def count_up {σ : Type*} (n : ℕ) (body : ℕ → σ → σ) (s : σ) : σ := (List.range n).foldl (fun s i => body i s) s

/-- `pci_dump`. -/
def pci_dump (h : PciBridge) : PciBridge × List PciLine :=
  count_up PCI_MAX_BUS (fun bus => count_up PCI_MAX_SLOTS fun slot => count_up PCI_MAX_FUNCS fun func =>
    pci_dump_func (UInt8.ofNat bus) (UInt8.ofNat slot) (UInt8.ofNat func)) (h, [])

/-! ### The list of the devices -/

/-- The word at an offset of the configuration space. -/
def ConfigSpace.word (conf : ConfigSpace) (bus slot func offset : ℕ) : UInt16 :=
  (conf bus slot func (offset / 4) >>> UInt32.ofNat (offset % 4 / 2 * 16)).toUInt16

/-- The lines for a function: there are two if there is a device, and it is of a class that is used. -/
def ConfigSpace.lines (conf : ConfigSpace) (bus slot func : ℕ) : List PciLine :=
  if conf.word bus slot func 0 ≠ 0xFFFF ∧ pci_is_class_used (conf.word bus slot func 0xA >>> 8) then
    [vendor_line (conf.word bus slot func 0), class_line (conf.word bus slot func 0xA >>> 8)]
  else []

section Pci

variable {h : PciBridge} {bus slot func offset : UInt8}

/-- **An address as a number**: its parts lie one behind the other. -/
theorem config_addr_toNat (hs : slot.toNat < 32) (hf : func.toNat < 8) :
    (config_addr bus slot func offset).toNat =
      2 ^ 31 + (2 ^ 16 * bus.toNat + (2 ^ 11 * slot.toNat + (2 ^ 8 * func.toNat + offset.toNat / 4 * 4))) := by
  have hb := bus.toNat_lt
  have ho := offset.toNat_lt
  have hoffset : ∀ o < 2 ^ 8, o &&& 0xFC = o / 4 * 4 := by decide +kernel
  have hsum : (config_addr bus slot func offset).toNat =
      bus.toNat * 2 ^ 16 % 2 ^ 32 ||| slot.toNat * 2 ^ 11 % 2 ^ 32 ||| func.toNat * 2 ^ 8 % 2 ^ 32 ||| (offset.toNat &&& 0xFC) ||| 2 ^ 31 := by
    simp only [config_addr, UInt32.toNat_or, UInt32.toNat_shiftLeft, UInt32.toNat_and, UInt8.toNat_toUInt32,
      Nat.shiftLeft_eq]
    rfl
  rw [hsum, hoffset _ ho, Nat.mod_eq_of_lt (by omega), Nat.mod_eq_of_lt (by omega), Nat.mod_eq_of_lt (by omega),
    Nat.mul_comm bus.toNat, Nat.mul_comm slot.toNat, Nat.mul_comm func.toNat, Nat.or_assoc, Nat.or_assoc, Nat.or_assoc,
    ← Nat.or_assoc, ← Nat.or_assoc, ← Nat.or_assoc, Nat.or_comm _ (2 ^ 31), Nat.or_assoc, Nat.or_assoc,
    ← Nat.two_pow_add_eq_or_of_lt (i := 8) (by omega), ← Nat.two_pow_add_eq_or_of_lt (i := 11) (by omega),
    ← Nat.two_pow_add_eq_or_of_lt (i := 16) (by omega)]
  exact (Nat.two_pow_add_eq_or_of_lt (i := 31) (by omega) 1).symm

/-- **A word that is read** is the one of the function that is asked. -/
theorem pci_config_read_word_eq (h : PciBridge) (hs : slot.toNat < 32) (hf : func.toNat < 8) :
    pci_config_read_word h bus slot func offset = (h.conf.word bus.toNat slot.toNat func.toNat offset.toNat,
      { h with config_address := (config_addr bus slot func offset).toBitVec }) := by
  have hb := bus.toNat_lt
  have ho := offset.toNat_lt
  have haddr := @config_addr_toNat bus slot func offset hs hf
  have hpart : ∀ start len, ((config_addr bus slot func offset).toBitVec.extractLsb' start len).toNat =
      (config_addr bus slot func offset).toNat / 2 ^ start % 2 ^ len := fun start len => by
    rw [BitVec.extractLsb'_toNat, Nat.shiftRight_eq_div_pow]
    rfl
  have hmeant : (config_addr bus slot func offset).toBitVec.getLsbD 31 = true := by
    show (config_addr bus slot func offset).toNat.testBit 31 = true
    rw [Nat.testBit_eq_decide_div_mod_eq, haddr]
    exact decide_eq_true (by omega)
  have hread : inportl { h with config_address := (config_addr bus slot func offset).toBitVec } CONFIG_DATA =
      h.conf bus.toNat slot.toNat func.toNat (offset.toNat / 4) := by
    obtain ⟨h₁, h₂, h₃, h₄⟩ : (config_addr bus slot func offset).toNat / 2 ^ 16 % 2 ^ 8 = bus.toNat ∧
        (config_addr bus slot func offset).toNat / 2 ^ 11 % 2 ^ 5 = slot.toNat ∧
          (config_addr bus slot func offset).toNat / 2 ^ 8 % 2 ^ 3 = func.toNat ∧
            (config_addr bus slot func offset).toNat / 2 ^ 2 % 2 ^ 6 = offset.toNat / 4 := by
      rw [haddr]
      omega
    rw [inportl, if_pos ⟨rfl, hmeant⟩, hpart, hpart, hpart, hpart, h₁, h₂, h₃, h₄]
  have hshift : ((offset &&& 2) * 8).toUInt32 = UInt32.ofNat (offset.toNat % 4 / 2 * 16) := by
    have hall : ∀ o < 2 ^ 8, (o &&& 2) * 8 % 2 ^ 8 = o % 4 / 2 * 16 := by decide +kernel
    apply UInt32.toNat_inj.1
    rw [UInt8.toNat_toUInt32, UInt8.toNat_mul, UInt8.toNat_and, UInt32.toNat_ofNat_of_lt' (show _ < 2 ^ 32 by omega)]
    exact hall _ ho
  rw [pci_config_read_word, outportl, if_pos rfl, hread, hshift]
  refine Prod.ext ?_ rfl
  show ((_ &&& 0xFFFF : UInt32)).toUInt16 = _
  apply UInt16.toNat_inj.1
  rw [UInt32.toNat_toUInt16, UInt32.toNat_and, ConfigSpace.word, UInt32.toNat_toUInt16]
  show (_ &&& 2 ^ 16 - 1) % 2 ^ 16 = _
  rw [Nat.and_two_pow_sub_one_eq_mod, Nat.mod_mod]

/-! ### The loops -/

/-- A loop whose body leaves the configuration space, and appends lines that depend on it. -/
def Lists (body : PciBridge × List PciLine → PciBridge × List PciLine) (lines : ConfigSpace → List PciLine) : Prop :=
  ∀ s, (body s).1.conf = s.1.conf ∧ (body s).2 = s.2 ++ lines s.1.conf

/-- **A loop over such bodies** is one, with the lines of all its turns. -/
theorem Lists.count_up {n : ℕ} {body : ℕ → PciBridge × List PciLine → PciBridge × List PciLine}
    {lines : ℕ → ConfigSpace → List PciLine} (hbody : ∀ i < n, Lists (body i) (lines i)) :
    Lists (Iridium.count_up n body) fun conf => (List.range n).flatMap fun i => lines i conf := by
  intro s
  unfold Iridium.count_up
  induction n with
  | zero => simp
  | succ n ih =>
    obtain ⟨hc, ho⟩ := ih fun i hi => hbody i (Nat.lt_succ_of_lt hi)
    simp only [List.range_succ, List.foldl_append, List.flatMap_append]
    obtain ⟨hc', ho'⟩ := hbody n (Nat.lt_succ_self n) ((List.range n).foldl (fun s i => body i s) s)
    rw [hc] at hc' ho'
    refine ⟨hc', ?_⟩
    rw [List.foldl_cons, List.foldl_nil, ho', ho]
    simp

/-- One turn. -/
theorem pci_dump_func_lists (hs : slot.toNat < 32) (hf : func.toNat < 8) :
    Lists (pci_dump_func bus slot func) fun conf => conf.lines bus.toNat slot.toNat func.toNat := by
  rintro ⟨h, out⟩
  simp only [pci_dump_func, pci_read_class, pci_read_vendor, pci_config_read_word_eq _ hs hf]
  unfold ConfigSpace.lines
  split
  next hno =>
    rw [if_neg]
    · exact ⟨rfl, (List.append_nil out).symm⟩
    · rintro ⟨hv, hc⟩
      rcases hno with hno | hno
      · exact hv hno
      · exact absurd (hno.symm.trans hc) nofun
  next hyes =>
    obtain ⟨hv, hc⟩ := not_or.1 hyes
    rw [if_pos ⟨hv, by simpa using hc⟩]
    exact ⟨rfl, rfl⟩

/-- The three loops, for any numbers of turns that the address has room for. -/
theorem dump_lists {buses slots funcs : ℕ} (hb : buses ≤ 2 ^ 8) (hs : slots ≤ 2 ^ 5) (hf : funcs ≤ 2 ^ 3) :
    Lists (Iridium.count_up buses fun bus => Iridium.count_up slots fun slot => Iridium.count_up funcs fun func =>
      pci_dump_func (UInt8.ofNat bus) (UInt8.ofNat slot) (UInt8.ofNat func)) fun conf =>
        (List.range buses).flatMap fun bus => (List.range slots).flatMap fun slot =>
          (List.range funcs).flatMap fun func => conf.lines bus slot func := by
  refine Lists.count_up fun bus hbus => Lists.count_up fun slot hslot => Lists.count_up fun func hfunc => ?_
  have hb' : (UInt8.ofNat bus).toNat = bus := UInt8.toNat_ofNat_of_lt' (show bus < 2 ^ 8 by omega)
  have hs' : (UInt8.ofNat slot).toNat = slot := UInt8.toNat_ofNat_of_lt' (show slot < 2 ^ 8 by omega)
  have hf' : (UInt8.ofNat func).toNat = func := UInt8.toNat_ofNat_of_lt' (show func < 2 ^ 8 by omega)
  have hturn := @pci_dump_func_lists (.ofNat bus) (.ofNat slot) (.ofNat func) (by omega) (by omega)
  rwa [hb', hs', hf'] at hturn

end Pci

/-- The devices of the configuration space, in the order of their addresses. -/
def ConfigSpace.devices (conf : ConfigSpace) : List PciLine :=
  (List.range PCI_MAX_BUS).flatMap fun bus => (List.range PCI_MAX_SLOTS).flatMap fun slot =>
    (List.range PCI_MAX_FUNCS).flatMap fun func => conf.lines bus slot func

/-- **For every configuration space**, and whatever was written to the bridge before: the devices are listed, each with
a name for its class. -/
theorem pci_dump_lists (h : PciBridge) :
    (pci_dump h).2 = h.conf.devices ∧ ∀ format s, .str format s ∈ (pci_dump h).2 → s ≠ none := by
  have hlists : (pci_dump h).2 = h.conf.devices := by
    rw [pci_dump, ConfigSpace.devices]
    exact (dump_lists (by decide) (by decide) (by decide) (h, [])).2.trans (List.nil_append _)
  refine ⟨hlists, fun format s hmem => ?_⟩
  rw [hlists] at hmem
  simp only [ConfigSpace.devices, List.mem_flatMap] at hmem
  obtain ⟨bus, -, slot, -, func, -, hmem⟩ := hmem
  unfold ConfigSpace.lines at hmem
  split at hmem
  next hd =>
    simp only [vendor_line, class_line, List.mem_cons, reduceCtorEq, PciLine.str.injEq, List.not_mem_nil, or_false,
      false_or] at hmem
    obtain ⟨-, rfl⟩ := hmem
    have hused := hd.2
    simp only [pci_is_class_used, Bool.or_eq_true, beq_iff_eq] at hused
    obtain ((hc | hc) | hc) | hc := hused <;> rw [hc] <;> decide
  next => cases hmem

end Iridium
