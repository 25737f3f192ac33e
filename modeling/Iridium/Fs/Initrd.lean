import Iridium.Mm.Kheap

/-!
# The initial ramdisk

`fs/initrd.c`: a tar archive in memory, and the search for a file in it. Each entry is a
header of 512 bytes, with the name at its beginning and the size as eleven octal digits
at offset 124, and then the data in whole blocks of 512 bytes. The search begins at the
second header, the first being that of the directory.

A C string is read from memory up to its zero byte; the path, which the caller gives, is
the list of its bytes.
-/

namespace Iridium

/-- `strlen` of the string at an address. There are `2^64` addresses to look at. -/
def strlen_at (mem : UInt64 → UInt8) : ℕ → UInt64 → Option ℕ
  | 0, _ => none
  | fuel + 1, a => if mem a = 0 then some 0 else (strlen_at mem fuel (a + 1)).map (· + 1)

/-- The bytes at an address are those of a list. -/
def bytes_eq (mem : UInt64 → UInt8) : UInt64 → List UInt8 → Bool
  | _, [] => true
  | a, b :: bs => mem a == b && bytes_eq mem (a + 1) bs

/-- `strcmp(str1, str2) == 0`, with `str1` in memory. The lengths are kept in 32 bits. -/
def strcmp_eq (mem : UInt64 → UInt8) (str1 : UInt64) (str2 : List UInt8) : Kern Bool := do
  let str1_len ← ofFuel (strlen_at mem (2 ^ 64) str1)
  if UInt32.ofNat str1_len ≠ UInt32.ofNat str2.length then return false
  return bytes_eq mem str1 str2

/-- `in[j - 1] - '0'`, as a `size_t`: `char` is signed. -/
def digit (c : UInt8) : UInt64 := c.toInt8.toInt64.toUInt64 - 48

/-- The loop of `getsize`, from digit `j` down to the first. -/
def getsize_from (mem : UInt64 → UInt8) (inp : UInt64) : ℕ → UInt64 → UInt64 → UInt64
  | 0, _, size => size
  | j + 1, count, size =>
    getsize_from mem inp j (count * 8) (size + digit (mem (inp + UInt64.ofNat j)) * count)

/-- `getsize`. -/
def getsize (mem : UInt64 → UInt8) (inp : UInt64) : UInt64 := getsize_from mem inp 11 1 0

/-- The offset of `size` in `struct TarHeader`. -/
def TAR_SIZE_OFFSET : UInt64 := 124

/-- `get_buf`: a buffer with the data of the entry at `data`, and a zero byte behind it.
When there is no memory for the buffer, the copy to `NULL` runs over low memory, up to an address
that is not mapped or over the kernel itself. -/
def get_buf (m : Mm) (data n_bytes : UInt64) : Kern (ℕ × Mm) := do
  let data := data + 0x200
  let (buf, m) ← kmalloc m (n_bytes + 1)
  if buf = 0 then throw .fault
  let bytes := fun a =>
    if buf ≤ a ∧ a < buf + n_bytes.toNat then m.module (data + UInt64.ofNat (a - buf))
    else if a = buf + n_bytes.toNat then 0
    else m.bytes a
  return (buf, { m with bytes })

/-- The loop of `initrd_open`: `header` is the one looked at before, `address` the next.
It answers with the address and the size of the entry found. -/
def initrd_scan (mem : UInt64 → UInt8) (path : List UInt8) :
    ℕ → UInt64 → UInt64 → Kern (Option (UInt64 × UInt64))
  | 0, _, _ => .error .endless
  | fuel + 1, header, address =>
    if mem header = 0 then .ok none
    else do
      let header := address
      let sz := getsize mem (header + TAR_SIZE_OFFSET)
      if ← strcmp_eq mem header path then return some (address, sz)
      initrd_scan mem path fuel header (address + ((sz + 511) / 512 + 1) * 512)

/-- The search of `initrd_open`. Its state is the address before and the address now, of
which there are `2^128`. -/
def initrd_find (m : Mm) (path : List UInt8) : Kern (Option (UInt64 × UInt64)) :=
  if path.length > 99 then .ok none
  else initrd_scan m.module path (2 ^ 128) (m.initrd + 0x200) (m.initrd + 0x200)

/-- `initrd_open`: `0` when there is no such file, otherwise a buffer with its data. -/
def initrd_open (m : Mm) (path : List UInt8) : Kern (ℕ × Mm) := do
  match ← initrd_find m path with
  | none => return (0, m)
  | some (address, sz) => get_buf m address sz

/-! ### What opening a file gives -/

/-- **The buffer of a file** holds the bytes of the archive. -/
theorem get_buf_ok {m m' : Mm} {data n_bytes : UInt64} {buf : ℕ}
    (hu : m.heap.Used m.heap.heap_tail) (h : get_buf m data n_bytes = .ok (buf, m')) :
    m.Grows m' ∧ buf ≠ 0 ∧
      ∀ i < n_bytes.toNat, m'.bytes (buf + i) = m.module (data + 0x200 + UInt64.ofNat i) := by
  obtain ⟨⟨b, m₁⟩, hk, h⟩ := bind_ok.1 h
  obtain ⟨hg, -⟩ := kmalloc_ok hu hk
  dsimp only at h
  split at h
  next => cases h
  next hb =>
    obtain ⟨rfl, rfl⟩ := Prod.mk.inj (pure_ok.1 h)
    refine ⟨hg.trans ⟨.refl _, rfl, rfl, rfl, Nat.le_refl _, id⟩, hb, fun i hi => ?_⟩
    simp [hi, hg.module]

/-- A file that is not there gives `NULL`; one that is there gives its bytes. -/
theorem initrd_open_ok {m m' : Mm} {path : List UInt8} {ptr : ℕ}
    (hu : m.heap.Used m.heap.heap_tail) (h : initrd_open m path = .ok (ptr, m')) :
    m.Grows m' ∧ ∀ {address sz}, initrd_find m path = .ok (some (address, sz)) →
      ptr ≠ 0 ∧ ∀ i < sz.toNat, m'.bytes (ptr + i) = m.module (address + 0x200 + UInt64.ofNat i) := by
  obtain ⟨o, ho, h⟩ := bind_ok.1 h
  cases o with
  | none =>
    obtain ⟨rfl, rfl⟩ := Prod.mk.inj (pure_ok.1 h)
    exact ⟨.refl _, fun hf => by rw [ho] at hf; cases hf⟩
  | some e =>
    obtain ⟨address, sz⟩ := e
    obtain ⟨hg, hb⟩ := get_buf_ok hu h
    refine ⟨hg, fun hf => ?_⟩
    rw [ho] at hf
    obtain ⟨rfl, rfl⟩ := Prod.mk.inj (Option.some.inj (Except.ok.inj hf))
    exact hb

/-- The search reads the archive only. -/
theorem Mm.Grows.initrd_find {m m' : Mm} (h : m.Grows m') (path : List UInt8) :
    initrd_find m' path = initrd_find m path := by
  unfold Iridium.initrd_find
  rw [h.module, h.initrd]

end Iridium
