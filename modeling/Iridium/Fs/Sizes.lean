import Mathlib.Order.Bounds.Basic
import Iridium.Common.Numerals
import Iridium.Fs.Scan

/-!
# The sizes of files

The size of a file stands in its header, in eleven octal digits. `getsize` of `fs/initrd.c` reads them from the
lowest on, and gets every size back that they have room for; what `initrd_open` then adds to the address of the
header is a block for the header and the whole blocks that the data takes (`size_exact`).
-/

namespace Iridium

open Lib

/-- A size as it is written: eleven octal digits, with zeros in front. -/
def octal (s : ℕ) : List UInt8 := (padded 11 8 s).map digit_char

/-- What `initrd_open` adds to the address of a header, for the size in it. -/
def stride (sz : UInt64) : UInt64 := ((sz + 511) / 512 + 1) * 512

/-- **A size is read right**: it is that of the file, and the search goes on behind the block of the header and the
least whole number of blocks that have room for the data. -/
structure SizeRight (mem : UInt64 → UInt8) (address : UInt64) (s : ℕ) : Prop where
  size : (getsize mem (address + TAR_SIZE_OFFSET)).toNat = s
  blocks : ∃ data, IsLeast {r | 512 ∣ r ∧ s ≤ r} data ∧
    (stride (getsize mem (address + TAR_SIZE_OFFSET))).toNat = 512 + data
  next : ∀ path fuel header, mem header ≠ 0 → strcmp_eq mem address path = .ok false →
    initrd_scan mem path (fuel + 1) header address =
      initrd_scan mem path fuel address (address + stride (getsize mem (address + TAR_SIZE_OFFSET)))

section Size

variable {mem : UInt64 → UInt8} {a : UInt64} {s j : ℕ}

/-- The digits, by their places. -/
theorem octal_getD (hs : s < 8 ^ 11) (hj : j < 11) : (octal s).getD j 0 = octal_digit s j := by
  have hlen : (padded 11 8 s).length = 11 := length_padded (by decide) (by decide) hs
  have hdigit := getD_padded (b := 8) (by decide) hs hj
  rw [List.getD_eq_getElem _ _ (by omega)] at hdigit
  rw [octal, List.getD_eq_getElem _ _ (by rw [List.length_map]; omega), List.getElem_map, hdigit, digit_char,
    octal_digit, Nat.add_comm]

/-- Data of `s` bytes in whole blocks. -/
theorem isLeast_blocks (s : ℕ) : IsLeast {r | 512 ∣ r ∧ s ≤ r} ((s + 511) / 512 * 512) := by
  refine ⟨⟨Nat.dvd_mul_left _ _, by omega⟩, ?_⟩
  rintro r ⟨⟨n, rfl⟩, hr⟩
  omega

theorem stride_toNat (hs : s < 8 ^ 11) : (stride (UInt64.ofNat s)).toNat = 512 + (s + 511) / 512 * 512 := by
  rw [stride, stride_ofNat hs, UInt64.toNat_ofNat_of_lt' (show _ < 2 ^ 64 by omega)]
  omega

end Size

/-- **For every size** that eleven octal digits have room for. -/
theorem size_exact {mem : UInt64 → UInt8} {address : UInt64} {s : ℕ} (hs : s < 8 ^ 11)
    (h : ∀ j < 11, mem (address + TAR_SIZE_OFFSET + UInt64.ofNat j) = (octal s).getD j 0) :
    SizeRight mem address s := by
  have hsize : getsize mem (address + TAR_SIZE_OFFSET) = UInt64.ofNat s :=
    getsize_of_octal hs fun j hj => (h j hj).trans (octal_getD hs hj)
  refine ⟨?_, ⟨_, isLeast_blocks s, ?_⟩, fun path fuel header hne hcmp => ?_⟩
  · rw [hsize, UInt64.toNat_ofNat_of_lt' (show s < 2 ^ 64 by omega)]
  · rw [hsize, stride_toNat hs]
  · rw [initrd_scan_succ, if_neg hne, hcmp]
    rfl

/-- The size 513, in the header at `0`. -/
theorem size_exact_small : SizeRight (fun a => (octal 513).getD (a - TAR_SIZE_OFFSET).toNat 0) 0 513 :=
  size_exact (by decide) (by decide +kernel)

end Iridium
