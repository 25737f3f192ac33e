import Mathlib.Algebra.Group.Nat.Defs
import Mathlib.Data.List.OfFn
import Mathlib.Logic.Function.Basic
import Mathlib.Tactic.Common

/-!
# The descriptor table and the task state

`arch/x86/gdt.c` and `proc/tss.c`. The table has the segments of the kernel and of ring 3, and room for a descriptor
of 16 bytes, which `write_tss` fills in: the task state is a block of the heap, and the processor finds in it the
stack that it takes when ring 3 is interrupted. For every block and every stack the descriptor says where the block
is, and the other descriptors stay (`write_tss_right`).

The last word of a task state says where the bitmap of the ports that ring 3 may use begins. `write_tss` leaves it 0,
and so the bitmap is the task state itself, whose bits are mostly 0, which means that a port is open. So ring 3 may use
every port below 832 but for those that the bits of its own kernel stack's address close (`ring3_port_iff`).
-/

namespace Iridium

/-! ### The code -/

/-- `struct GDTDesc`. -/
structure GDTDesc where
  limit : BitVec 16
  base_low : BitVec 16
  base_mid : BitVec 8
  access : BitVec 8
  granularity : BitVec 8
  base_hi : BitVec 8

/-- The 8 bytes of a descriptor, the last one first. -/
def GDTDesc.bits (d : GDTDesc) : BitVec 64 :=
  d.base_hi ++ d.granularity ++ d.access ++ d.base_mid ++ d.base_low ++ d.limit

/-- `struct TSSDescriptor`. -/
structure TSSDescriptor where
  seglimit : BitVec 16
  baseAddrLow : BitVec 16
  baseAddrMiddle : BitVec 8
  type : BitVec 4
  zero : BitVec 1
  dpl : BitVec 2
  p : BitVec 1
  segLimitUpper : BitVec 4
  avl : BitVec 1
  unused : BitVec 2
  g : BitVec 1
  baseAddrOtherMiddle : BitVec 8
  baseAddrUpper : BitVec 32
  reserved : BitVec 32

/-- Its 16 bytes. -/
def TSSDescriptor.bits (d : TSSDescriptor) : BitVec 128 :=
  d.reserved ++ d.baseAddrUpper ++ d.baseAddrOtherMiddle ++ d.g ++ d.unused ++ d.avl ++ d.segLimitUpper ++ d.p ++
    d.dpl ++ d.zero ++ d.type ++ d.baseAddrMiddle ++ d.baseAddrLow ++ d.seglimit

/-- 16 bytes, as a descriptor. -/
def TSSDescriptor.ofBits (b : BitVec 128) : TSSDescriptor where
  seglimit := b.extractLsb' 0 16
  baseAddrLow := b.extractLsb' 16 16
  baseAddrMiddle := b.extractLsb' 32 8
  type := b.extractLsb' 40 4
  zero := b.extractLsb' 44 1
  dpl := b.extractLsb' 45 2
  p := b.extractLsb' 47 1
  segLimitUpper := b.extractLsb' 48 4
  avl := b.extractLsb' 52 1
  unused := b.extractLsb' 53 2
  g := b.extractLsb' 55 1
  baseAddrOtherMiddle := b.extractLsb' 56 8
  baseAddrUpper := b.extractLsb' 64 32
  reserved := b.extractLsb' 96 32

/-- `gdt`, in words of 8 bytes. -/
abbrev Gdt := ℕ → BitVec 64

/-- `gdt` as the program file has it. -/
def gdt : Gdt := fun i =>
  [0,
    (GDTDesc.mk 0xFFFF 0 0 0b10011010 0b00000000 0).bits,
    (GDTDesc.mk 0xFFFF 0 0 0b10010010 0b00000000 0).bits,
    (GDTDesc.mk 0xFFFF 0 0 0b10011010 0b11001111 0).bits,
    (GDTDesc.mk 0xFFFF 0 0 0b10010010 0b11001111 0).bits,
    (GDTDesc.mk 0x0000 0 0 0b10011010 0b00100000 0).bits,
    (GDTDesc.mk 0x0000 0 0 0b10010010 0b00000000 0).bits,
    (GDTDesc.mk 0x0000 0 0 0b11111010 0b10101111 0).bits,
    (GDTDesc.mk 0x0000 0 0 0b11110010 0b00000000 0).bits,
    0, 0, 0].getD i 0

/-- `GDT_TSS`. -/
def GDT_TSS : ℕ := 9

/-- `gdt_tss`, which points into `gdt`. -/
def gdt_tss (t : Gdt) : TSSDescriptor := .ofBits (t (GDT_TSS + 1) ++ t GDT_TSS)

/-- What is assigned through `gdt_tss`. -/
def set_gdt_tss (t : Gdt) (d : TSSDescriptor) : Gdt :=
  Function.update (Function.update t GDT_TSS (d.bits.extractLsb' 0 64)) (GDT_TSS + 1) (d.bits.extractLsb' 64 64)

/-- `struct TSSEntry`. -/
structure TSSEntry where
  reserved1 : BitVec 32
  rsp0Low : BitVec 32
  rsp0High : BitVec 32
  rsp1Low : BitVec 32
  rsp1High : BitVec 32
  rsp2Low : BitVec 32
  rsp2High : BitVec 32
  reserved2 : BitVec 64
  /-- `ist1Low` to `ist7High`. -/
  ist : Fin 14 → BitVec 32
  reserved3 : BitVec 64
  reserved4 : BitVec 16
  io_base : BitVec 16

/-- `sizeof(struct TSSEntry)`. -/
def sizeof_TSSEntry : ℕ := 104

/-- A task state that is nulled out. -/
def TSSEntry.zero : TSSEntry := ⟨0, 0, 0, 0, 0, 0, 0, 0, fun _ => 0, 0, 0, 0⟩

/-- The bytes of a task state, four by four. -/
def TSSEntry.dwords (e : TSSEntry) : List (BitVec 32) :=
  [e.reserved1, e.rsp0Low, e.rsp0High, e.rsp1Low, e.rsp1High, e.rsp2Low, e.rsp2High, e.reserved2.extractLsb' 0 32,
      e.reserved2.extractLsb' 32 32] ++ List.ofFn e.ist ++
    [e.reserved3.extractLsb' 0 32, e.reserved3.extractLsb' 32 32, e.io_base ++ e.reserved4]

/-- `write_tss`, with the block of `kmalloc` and the page of `vmm_alloc_page`: the table, and the task state. -/
def write_tss (t : Gdt) (tss page : UInt64) : Gdt × TSSEntry :=
  let base := tss.toBitVec
  let stack := page.toBitVec + (0x1000 - 20)
  (set_gdt_tss t { gdt_tss t with
    seglimit := BitVec.ofNat 16 sizeof_TSSEntry
    g := 0
    baseAddrLow := (base &&& 0xFFFF).setWidth 16
    baseAddrMiddle := ((base >>> 16) &&& 0xFF).setWidth 8
    baseAddrOtherMiddle := ((base >>> 24) &&& 0xFF).setWidth 8
    baseAddrUpper := (base >>> 32).setWidth 32
    avl := 0
    dpl := 0
    p := 1
    reserved := 0
    type := 0x9
    zero := 0 },
    { TSSEntry.zero with rsp0Low := (stack &&& 0xFFFFFFFF).setWidth 32, rsp0High := (stack >>> 32).setWidth 32 })

/-! ### The processor -/

/-- The descriptor that a selector names. -/
def selected (sel : UInt16) : ℕ := sel.toNat / 8

/-- What the processor finds in the descriptor of a code or data segment. -/
structure PlainSegment where
  /-- Bit 3 is set for code. -/
  type : BitVec 4
  /-- A code or data segment. -/
  s : BitVec 1
  dpl : BitVec 2
  present : BitVec 1
  /-- A segment of 64-bit code. -/
  long : BitVec 1
  deriving DecidableEq

def PlainSegment.decode (b : BitVec 64) : PlainSegment where
  type := b.extractLsb' 40 4
  s := b.extractLsb' 44 1
  dpl := b.extractLsb' 45 2
  present := b.extractLsb' 47 1
  long := b.extractLsb' 53 1

/-- What it finds in the descriptor of a task state. -/
@[ext]
structure SystemSegment where
  base : BitVec 64
  limit : BitVec 20
  type : BitVec 4
  s : BitVec 1
  dpl : BitVec 2
  present : BitVec 1
  granularity : BitVec 1

def SystemSegment.decode (b : BitVec 128) : SystemSegment where
  base := b.extractLsb' 64 32 ++ (b.extractLsb' 56 8 ++ (b.extractLsb' 32 8 ++ b.extractLsb' 16 16))
  limit := b.extractLsb' 48 4 ++ b.extractLsb' 0 16
  type := b.extractLsb' 40 4
  s := b.extractLsb' 44 1
  dpl := b.extractLsb' 45 2
  present := b.extractLsb' 47 1
  granularity := b.extractLsb' 55 1

/-- The stack of ring 0 in a task state. -/
def rsp0 (dwords : List (BitVec 32)) : BitVec 64 := dwords.getD 2 0 ++ dwords.getD 1 0

/-- A bit of the task state. -/
def state_bit (dwords : List (BitVec 32)) (n : ℕ) : Bool := (dwords.getD (n / 32) 0).getLsbD (n % 32)

/-- **Ring 3 may use a port**, for a byte: the two bytes of the bitmap that the processor looks at are within the limit
of the segment, and the bit of the port is clear. -/
def PortOpen (dwords : List (BitVec 32)) (limit : ℕ) (port : UInt16) : Prop :=
  let io_base := ((dwords.getD 25 0).extractLsb' 16 16).toNat
  io_base + port.toNat / 8 + 1 ≤ limit ∧ state_bit dwords (8 * io_base + port.toNat) = false

/-- **The task state is set up**: the descriptor that `load_tss` names is one of an available task state and leads to
its block, the stack is what was allocated, and the selectors that the kernel uses name 64-bit code and data, of
ring 0 and of ring 3. -/
structure TssRight (t : Gdt) (e : TSSEntry) (tss page : UInt64) : Prop where
  segment : SystemSegment.decode (t (selected (0x48 ||| 3) + 1) ++ t (selected (0x48 ||| 3))) =
    { base := tss.toBitVec, limit := BitVec.ofNat 20 sizeof_TSSEntry, type := 9, s := 0, dpl := 0, present := 1,
      granularity := 0 }
  stack : rsp0 e.dwords = page.toBitVec + (0x1000 - 20)
  kernel_code : PlainSegment.decode (t (selected 0x28)) = { type := 0b1010, s := 1, dpl := 0, present := 1, long := 1 }
  kernel_data : PlainSegment.decode (t (selected 0x30)) = { type := 0b0010, s := 1, dpl := 0, present := 1, long := 0 }
  user_code : PlainSegment.decode (t (selected (0x38 ||| 3))) =
    { type := 0b1010, s := 1, dpl := 3, present := 1, long := 1 }
  user_data : PlainSegment.decode (t (selected (0x40 ||| 3))) =
    { type := 0b0010, s := 1, dpl := 3, present := 1, long := 0 }

section Tss

/-- The fields of a descriptor are where the processor looks for them. -/
theorem decode_tss_bits (d : TSSDescriptor) : SystemSegment.decode d.bits =
    { base := d.baseAddrUpper ++ (d.baseAddrOtherMiddle ++ (d.baseAddrMiddle ++ d.baseAddrLow)),
      limit := d.segLimitUpper ++ d.seglimit, type := d.type, s := d.zero, dpl := d.dpl, present := d.p,
      granularity := d.g } := by
  have hlimit : d.bits.extractLsb' 0 16 = d.seglimit := BitVec.extractLsb'_append_eq_right
  obtain ⟨hlow, hmid, htype, hs, hdpl, hp, hupper, hg, hother, hhigh⟩ :
      d.bits.extractLsb' 16 16 = d.baseAddrLow ∧ d.bits.extractLsb' 32 8 = d.baseAddrMiddle ∧
        d.bits.extractLsb' 40 4 = d.type ∧ d.bits.extractLsb' 44 1 = d.zero ∧ d.bits.extractLsb' 45 2 = d.dpl ∧
          d.bits.extractLsb' 47 1 = d.p ∧ d.bits.extractLsb' 48 4 = d.segLimitUpper ∧
            d.bits.extractLsb' 55 1 = d.g ∧ d.bits.extractLsb' 56 8 = d.baseAddrOtherMiddle ∧
              d.bits.extractLsb' 64 32 = d.baseAddrUpper := by
    refine ⟨?_, ?_, ?_, ?_, ?_, ?_, ?_, ?_, ?_, ?_⟩
    all_goals
      -- the fields before it are passed over
      refine (BitVec.extractLsb'_append_eq_of_le (by decide)).trans ?_
      repeat rw [BitVec.extractLsb'_append_eq_of_le (by omega)]
      exact BitVec.extractLsb'_append_eq_right
  rw [SystemSegment.decode, hlimit, hlow, hmid, htype, hs, hdpl, hp, hupper, hg, hother, hhigh]

/-- A mask that keeps what is kept anyway. -/
theorem and_mask_setWidth (a : BitVec 64) {w : ℕ} (hw : w ≤ 64) :
    (a &&& BitVec.ofNat 64 (2 ^ w - 1)).setWidth w = a.setWidth w := by
  have hlt : 2 ^ w - 1 < 2 ^ 64 := by
    have := Nat.pow_le_pow_right (show 0 < 2 by decide) hw
    have := Nat.two_pow_pos w
    omega
  refine BitVec.eq_of_toNat_eq ?_
  rw [BitVec.toNat_setWidth, BitVec.toNat_setWidth, BitVec.toNat_and, BitVec.toNat_ofNat, Nat.mod_eq_of_lt hlt,
    Nat.and_two_pow_sub_one_eq_mod, Nat.mod_mod]

/-- The pieces of the address of a task state make it up. -/
theorem tss_pieces (a : BitVec 64) : (a >>> 32).setWidth 32 ++ (((a >>> 24) &&& 0xFF).setWidth 8 ++
    (((a >>> 16) &&& 0xFF).setWidth 8 ++ (a &&& 0xFFFF).setWidth 16)) = a := by
  have hbyte : ∀ b : BitVec 64, (b &&& 0xFF).setWidth 8 = b.setWidth 8 := fun b => and_mask_setWidth b (by decide)
  have hword : ∀ b : BitVec 64, (b &&& 0xFFFF).setWidth 16 = b.setWidth 16 := fun b => and_mask_setWidth b (by decide)
  rw [hbyte, hbyte, hword]
  refine BitVec.eq_of_getLsbD_eq fun j hj => ?_
  rw [BitVec.getLsbD_append, BitVec.getLsbD_append, BitVec.getLsbD_append]
  simp only [BitVec.getLsbD_setWidth, BitVec.getLsbD_ushiftRight]
  split
  · split
    · split
      next h => simp [h]
      next h => simp [show j - 16 < 8 by omega, show 16 + (j - 16) = j by omega]
    · simp [show j - (8 + 16) < 8 by omega, show 24 + (j - (8 + 16)) = j by omega]
  · simp [show j - (8 + (8 + 16)) < 32 by omega, show 32 + (j - (8 + (8 + 16))) = j by omega]

/-- The two words of the descriptor. -/
theorem set_gdt_tss_words (t : Gdt) (d : TSSDescriptor) :
    set_gdt_tss t d (GDT_TSS + 1) ++ set_gdt_tss t d GDT_TSS = d.bits := by
  have hlow : set_gdt_tss t d GDT_TSS = d.bits.extractLsb' 0 64 := by
    rw [set_gdt_tss, Function.update_of_ne (by decide), Function.update_self]
  rw [hlow, set_gdt_tss, Function.update_self]
  exact BitVec.extractLsb'_append_extractLsb'

/-- **The other descriptors** stay. -/
theorem set_gdt_tss_of_ne (t : Gdt) (d : TSSDescriptor) {i : ℕ} (h : i ≠ GDT_TSS) (h' : i ≠ GDT_TSS + 1) :
    set_gdt_tss t d i = t i := by
  rw [set_gdt_tss, Function.update_of_ne h', Function.update_of_ne h]

/-- What is written to the task state. -/
theorem write_tss_dwords (t : Gdt) (tss page : UInt64) : (write_tss t tss page).2.dwords =
    0 :: ((page.toBitVec + (0x1000 - 20)) &&& 0xFFFFFFFF).setWidth 32 ::
      ((page.toBitVec + (0x1000 - 20)) >>> 32).setWidth 32 :: List.replicate 23 0 := by
  simp only [write_tss, TSSEntry.dwords, TSSEntry.zero, List.ofFn_const]
  rfl

/-- The halves of the stack's address make it up. -/
theorem stack_pieces (a : BitVec 64) : (a >>> 32).setWidth 32 ++ (a &&& 0xFFFFFFFF).setWidth 32 = a := by
  rw [show (a &&& 0xFFFFFFFF).setWidth 32 = a.setWidth 32 from and_mask_setWidth a (by decide)]
  refine BitVec.eq_of_getLsbD_eq fun j hj => ?_
  rw [BitVec.getLsbD_append]
  simp only [BitVec.getLsbD_setWidth, BitVec.getLsbD_ushiftRight]
  split
  next h => simp [h]
  next h => simp [show j - 32 < 32 by omega, show 32 + (j - 32) = j by omega]

theorem write_tss_stack (t : Gdt) (tss page : UInt64) :
    rsp0 (write_tss t tss page).2.dwords = page.toBitVec + (0x1000 - 20) := by
  rw [write_tss_dwords]
  exact stack_pieces _

/-- Behind the stack nothing is set. -/
theorem write_tss_clear (t : Gdt) (tss page : UInt64) {n : ℕ} (hn : 3 ≤ n) :
    (write_tss t tss page).2.dwords.getD n 0 = 0 := by
  obtain ⟨m, rfl⟩ := Nat.exists_eq_add_of_le' hn
  rw [write_tss_dwords, List.getD_cons_succ, List.getD_cons_succ, List.getD_cons_succ, List.getD_eq_getElem?_getD,
    List.getElem?_replicate]
  split <;> rfl

/-- **A bit of the task state** is one of the address of the stack, or clear. -/
theorem write_tss_bit (t : Gdt) (tss page : UInt64) (n : ℕ) : state_bit (write_tss t tss page).2.dwords n =
    (decide (32 ≤ n ∧ n < 96) && (page.toBitVec + (0x1000 - 20)).getLsbD (n - 32)) := by
  rw [← write_tss_stack t tss page, rsp0, BitVec.getLsbD_append, state_bit]
  obtain h | h | h | h : n / 32 = 0 ∨ n / 32 = 1 ∨ n / 32 = 2 ∨ 3 ≤ n / 32 := by omega
  · have h0 : (write_tss t tss page).2.dwords.getD 0 0 = 0 := by rw [write_tss_dwords, List.getD_cons_zero]
    rw [h, h0, decide_eq_false (by omega)]
    simp
  · rw [h, decide_eq_true (by omega), if_pos (by omega), show n % 32 = n - 32 by omega, Bool.true_and]
  · rw [h, decide_eq_true (by omega), if_neg (by omega), show n % 32 = n - 32 - 32 by omega, Bool.true_and]
  · rw [write_tss_clear t tss page h, decide_eq_false (by omega)]
    simp

end Tss

/-- **For every block and every page** the task state is set up, and the other descriptors stay. -/
theorem write_tss_right (tss page : UInt64) :
    TssRight (write_tss gdt tss page).1 (write_tss gdt tss page).2 tss page ∧
      ∀ i, i ≠ GDT_TSS → i ≠ GDT_TSS + 1 → (write_tss gdt tss page).1 i = gdt i := by
  have hother : ∀ i, i ≠ GDT_TSS → i ≠ GDT_TSS + 1 → (write_tss gdt tss page).1 i = gdt i :=
    fun i h h' => set_gdt_tss_of_ne _ _ h h'
  refine ⟨⟨?_, write_tss_stack _ _ _, ?_, ?_, ?_, ?_⟩, hother⟩
  · show SystemSegment.decode ((write_tss gdt tss page).1 (GDT_TSS + 1) ++ (write_tss gdt tss page).1 GDT_TSS) = _
    rw [write_tss, set_gdt_tss_words, decode_tss_bits, SystemSegment.mk.injEq]
    have hlimit : (gdt_tss gdt).segLimitUpper ++ BitVec.ofNat 16 sizeof_TSSEntry = BitVec.ofNat 20 sizeof_TSSEntry := by
      decide
    exact ⟨tss_pieces _, hlimit, rfl, rfl, rfl, rfl, rfl⟩
  · rw [hother _ (by decide) (by decide)]
    decide
  · rw [hother _ (by decide) (by decide)]
    decide
  · rw [hother _ (by decide) (by decide)]
    decide
  · rw [hother _ (by decide) (by decide)]
    decide

/-- **Ring 3 may use a port**, once the task state is set up, if and only if its number is below 832 and it is none of
those from 32 to 95 whose bit is set in the address of the kernel stack. -/
theorem ring3_port_iff (tss page : UInt64) (port : UInt16) :
    PortOpen (write_tss gdt tss page).2.dwords sizeof_TSSEntry port ↔ port.toNat < 832 ∧
      (32 ≤ port.toNat → port.toNat < 96 → (page.toBitVec + (0x1000 - 20)).getLsbD (port.toNat - 32) = false) := by
  have hio : (((write_tss gdt tss page).2.dwords.getD 25 0).extractLsb' 16 16).toNat = 0 := by
    rw [write_tss_clear _ _ _ (by decide)]
    rfl
  have hlimit : port.toNat / 8 + 1 ≤ sizeof_TSSEntry ↔ port.toNat < 832 := by
    rw [sizeof_TSSEntry]
    omega
  simp only [PortOpen, hio, write_tss_bit, Nat.mul_zero, Nat.zero_add, hlimit]
  refine and_congr_right fun _ => ?_
  by_cases h : 32 ≤ port.toNat ∧ port.toNat < 96
  · simp [h]
  · rw [decide_eq_false h]
    exact iff_of_true rfl fun h₁ h₂ => absurd ⟨h₁, h₂⟩ h

end Iridium
