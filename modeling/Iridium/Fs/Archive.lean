import Mathlib.Data.UInt
import Mathlib.Tactic.IntervalCases
import Mathlib.Tactic.NormNum
import Mathlib.Tactic.Ring
import Iridium.Mm.KheapRuns
import Iridium.Fs.Initrd

/-!
# Archives

What `initrd_open` finds in a well-formed archive, for any path.

The loop of `initrd_open` looks at a header, and tests the name of the header *before* it whether
the archive has ended. So entries behind one without a name are out of reach, a first entry without a
name ends the search before it has begun, and the zero block at the end is looked at as if it were an
entry, without a name and of a size that no heap has. `initrd_open_iff` says for which archives and
paths a file is opened as it should be.
-/

namespace Iridium

/-! ### Archives in memory -/

/-- A file in an archive. -/
structure TarEntry where
  name : List UInt8
  data : List UInt8
  deriving DecidableEq

/-- The name fits into its field and has no zero byte, and the size has eleven octal digits. -/
structure TarEntry.Ok (e : TarEntry) : Prop where
  name_le : e.name.length ≤ 99
  name_ne : ∀ c ∈ e.name, c ≠ 0
  size_lt : e.data.length < 8 ^ 11

/-- Octal digit `j` of eleven, the first being the highest. -/
def octal_digit (n j : ℕ) : UInt8 := UInt8.ofNat (48 + n / 8 ^ (10 - j) % 8)

/-- The header of an entry at an address, and its data behind the header. -/
structure TarEntry.At (mem : UInt64 → UInt8) (a : UInt64) (e : TarEntry) : Prop where
  name : ∀ i, (h : i < e.name.length) → mem (a + UInt64.ofNat i) = e.name.get ⟨i, h⟩
  nul : mem (a + UInt64.ofNat e.name.length) = 0
  size : ∀ j < 11, mem (a + TAR_SIZE_OFFSET + UInt64.ofNat j) = octal_digit e.data.length j
  data : ∀ i, (h : i < e.data.length) → mem (a + 0x200 + UInt64.ofNat i) = e.data.get ⟨i, h⟩

/-- The bytes that an entry takes: its header, and its data in whole blocks. -/
def TarEntry.span (e : TarEntry) : ℕ := ((e.data.length + 511) / 512 + 1) * 512

/-- Entries one behind the other, and a zero block. -/
def EntriesAt (mem : UInt64 → UInt8) : UInt64 → List TarEntry → Prop
  | a, [] => ∀ i < 512, mem (a + UInt64.ofNat i) = 0
  | a, e :: es => e.Ok ∧ e.At mem a ∧ EntriesAt mem (a + UInt64.ofNat e.span) es

/-- **A well-formed archive**: the header of a directory, entries, and a zero block, all of it below
the end of memory. -/
structure Archive (m : Mm) (es : List TarEntry) : Prop where
  directory : ∃ d : TarEntry, d.Ok ∧ d.data = [] ∧ d.At m.module m.initrd
  entries : EntriesAt m.module (m.initrd + 0x200) es
  fits : m.initrd.toNat + 0x200 + (es.map TarEntry.span).sum + 0x200 ≤ 2 ^ 64

/-! ### Reading a header -/

section Header

variable {mem : UInt64 → UInt8} {a : UInt64} {e : TarEntry} {path : List UInt8}

/-- The address behind the next one. -/
theorem add_one_ofNat (a : UInt64) (i : ℕ) : a + 1 + UInt64.ofNat i = a + UInt64.ofNat (i + 1) := by
  rw [UInt64.ofNat_add, UInt64.add_assoc, UInt64.add_comm 1]
  rfl

/-- **The length of a string** is the place of its first zero byte. -/
theorem strlen_at_iff {fuel n : ℕ} : strlen_at mem fuel a = some n ↔
    n < fuel ∧ (∀ j < n, mem (a + UInt64.ofNat j) ≠ 0) ∧ mem (a + UInt64.ofNat n) = 0 := by
  have hzero : ∀ a, mem (a + UInt64.ofNat 0) = mem a := fun a => congrArg mem (UInt64.add_zero a)
  induction fuel generalizing a n with
  | zero => exact iff_of_false (by simp [strlen_at]) fun h => absurd h.1 (Nat.not_lt_zero n)
  | succ fuel ih =>
    rw [strlen_at]
    by_cases h0 : mem a = 0
    · rw [if_pos h0, Option.some.injEq]
      constructor
      · rintro rfl
        exact ⟨Nat.succ_pos fuel, fun j hj => absurd hj (Nat.not_lt_zero j), (hzero a).trans h0⟩
      · rintro ⟨-, hne, -⟩
        by_contra hn
        exact hne 0 (by omega) ((hzero a).trans h0)
    · rw [if_neg h0]
      cases n with
      | zero => exact iff_of_false (by simp) fun h => h0 ((hzero a).symm.trans h.2.2)
      | succ n =>
        have hmap : (strlen_at mem fuel (a + 1)).map (· + 1) = some (n + 1) ↔ strlen_at mem fuel (a + 1) = some n := by
          simp
        refine hmap.trans (ih.trans ?_)
        rw [Nat.forall_lt_succ_left, hzero, Nat.succ_lt_succ_iff, and_iff_right h0]
        simp only [add_one_ofNat]

theorem strlen_at_of_name {name : List UInt8} {fuel : ℕ} (hlt : name.length < fuel)
    (hname : ∀ i, (h : i < name.length) → mem (a + UInt64.ofNat i) = name.get ⟨i, h⟩)
    (hne : ∀ c ∈ name, c ≠ 0) (hnul : mem (a + UInt64.ofNat name.length) = 0) :
    strlen_at mem fuel a = some name.length :=
  strlen_at_iff.2 ⟨hlt, fun j hj => by rw [hname j hj]; exact hne _ (List.get_mem _ _), hnul⟩

theorem bytes_eq_iff {path name : List UInt8} (hl : path.length = name.length)
    (hname : ∀ i, (h : i < name.length) → mem (a + UInt64.ofNat i) = name.get ⟨i, h⟩) :
    bytes_eq mem a path = true ↔ name = path := by
  induction path generalizing a name with
  | nil =>
    obtain rfl := List.length_eq_zero_iff.1 hl.symm
    simp [bytes_eq]
  | cons b bs ih =>
    cases name with
    | nil => cases hl
    | cons c cs =>
      have hc : mem a = c := by simpa using hname 0 (by simp)
      have hrest := ih (a := a + 1) (by simpa using hl)
        (fun i h => by rw [add_one_ofNat]; exact hname (i + 1) (by simpa using h))
      simp only [bytes_eq, Bool.and_eq_true, beq_iff_eq, hc, hrest, List.cons.injEq]

/-- **Names are compared.** -/
theorem strcmp_eq_name {name : List UInt8} (hle : name.length ≤ 99) (hp : path.length ≤ 99)
    (hname : ∀ i, (h : i < name.length) → mem (a + UInt64.ofNat i) = name.get ⟨i, h⟩)
    (hne : ∀ c ∈ name, c ≠ 0) (hnul : mem (a + UInt64.ofNat name.length) = 0) :
    strcmp_eq mem a path = .ok (decide (name = path)) := by
  have hlen : strlen_at mem (2 ^ 64) a = some name.length :=
    strlen_at_of_name (Nat.lt_of_le_of_lt hle (by decide)) hname hne hnul
  unfold strcmp_eq
  rw [hlen]
  refine bind_ok.2 ⟨_, rfl, ?_⟩
  have hsmall : ∀ n ≤ 99, (UInt32.ofNat n).toNat = n := fun n hn =>
    UInt32.toNat_ofNat_of_lt' (Nat.lt_of_le_of_lt hn (by decide))
  by_cases heq : path.length = name.length
  · rw [if_neg (by rw [heq]; simp)]
    simp only [pure_ok]
    rw [Bool.eq_iff_iff, bytes_eq_iff heq hname, decide_eq_true_eq]
  · have hne : UInt32.ofNat name.length ≠ UInt32.ofNat path.length := fun he => heq (by
      rw [← hsmall _ hp, ← hsmall _ hle, he])
    have hname : name ≠ path := fun he => heq (by rw [he])
    rw [if_pos hne]
    simp [hname]

/-- The first byte of a header says whether there is a name. -/
theorem TarEntry.At.first (h : e.At mem a) (hok : e.Ok) : mem a = 0 ↔ e.name = [] := by
  cases hn : e.name with
  | nil =>
    have hnul := h.nul
    rw [hn] at hnul
    simpa using hnul
  | cons c cs =>
    have hc : mem a = c := by simpa [hn] using h.name 0 (by simp [hn])
    simpa [hc] using hok.name_ne c (by simp [hn])

/-- A digit, read. -/
theorem digit_octal (n j : ℕ) : digit (octal_digit n j) = UInt64.ofNat (n / 8 ^ (10 - j) % 8) := by
  unfold octal_digit
  have hlt := Nat.mod_lt (n / 8 ^ (10 - j)) (by decide : 0 < 8)
  generalize n / 8 ^ (10 - j) % 8 = d at hlt
  interval_cases d <;> decide

/-- The loop of `getsize`, from digit `j` down. -/
theorem getsize_from_octal {n j : ℕ} {size : UInt64} (hj : j ≤ 11)
    (h : ∀ i < 11, mem (a + UInt64.ofNat i) = octal_digit n i) :
    getsize_from mem a j (UInt64.ofNat (8 ^ (11 - j))) size =
      size + UInt64.ofNat (n / 8 ^ (11 - j) % 8 ^ j * 8 ^ (11 - j)) := by
  induction j generalizing size with
  | zero => simp [getsize_from, Nat.mod_one]
  | succ j ih =>
    have hpow : 11 - j = (11 - (j + 1)) + 1 := by omega
    have hcount : UInt64.ofNat (8 ^ (11 - (j + 1))) * 8 = UInt64.ofNat (8 ^ (11 - j)) := by
      rw [hpow, pow_succ, UInt64.ofNat_mul]
      rfl
    have h10 : 10 - j = 11 - (j + 1) := by omega
    rw [getsize_from, hcount, ih (by omega), h j (by omega), digit_octal, h10]
    -- digit `j` is the last one of the number that is left
    have hdigits : n / 8 ^ (11 - (j + 1)) % 8 ^ (j + 1) =
        n / 8 ^ (11 - (j + 1)) % 8 + 8 * (n / 8 ^ (11 - j) % 8 ^ j) := by
      rw [pow_succ', Nat.mod_mul, Nat.div_div_eq_div_mul, hpow, pow_succ]
    rw [hdigits, UInt64.add_assoc, ← UInt64.ofNat_mul, ← UInt64.ofNat_add]
    congr 2
    rw [hpow, pow_succ]
    ring

/-- **A size** that the eleven digits have room for is read. -/
theorem getsize_of_octal {n : ℕ} (hn : n < 8 ^ 11) (h : ∀ j < 11, mem (a + UInt64.ofNat j) = octal_digit n j) :
    getsize mem a = UInt64.ofNat n := by
  have hs : getsize_from mem a 11 (UInt64.ofNat (8 ^ (11 - 11))) 0 = _ := getsize_from_octal (Nat.le_refl 11) h
  simp only [Nat.sub_self, pow_zero, Nat.div_one, mul_one, Nat.mod_eq_of_lt hn, UInt64.zero_add] at hs
  exact hs

/-- **The size of an entry** is that of its data. -/
theorem TarEntry.At.getsize (h : e.At mem a) (hok : e.Ok) :
    Iridium.getsize mem (a + TAR_SIZE_OFFSET) = UInt64.ofNat e.data.length :=
  getsize_of_octal hok.size_lt h.size

/-- The size that the zero block seems to have. -/
def ZERO_SIZE : UInt64 := 0 - 48 * ((8 ^ 11 - 1) / 7)

theorem getsize_zero (h : ∀ i < 11, mem (a + UInt64.ofNat i) = 0) : getsize mem a = ZERO_SIZE := by
  have hd : digit 0 = 0 - 48 := by decide
  unfold getsize
  simp only [getsize_from, h, hd, Nat.reduceLT]
  decide

/-- What is added for a size does not wrap. -/
theorem stride_ofNat {n : ℕ} (hn : n < 8 ^ 11) :
    ((UInt64.ofNat n + 511) / 512 + 1) * 512 = UInt64.ofNat (((n + 511) / 512 + 1) * 512) := by
  apply UInt64.toNat_inj.1
  simp
  omega

/-- The address of the entry behind an entry. -/
theorem TarEntry.Ok.span_eq (h : e.Ok) :
    ((UInt64.ofNat e.data.length + 511) / 512 + 1) * 512 = UInt64.ofNat e.span := stride_ofNat h.size_lt

end Header

/-! ### The search -/

/-- What the loop of `initrd_open` finds among entries, the first one at an address. -/
def scan_entries (path : List UInt8) : UInt64 → List TarEntry → Option (UInt64 × UInt64)
  | a, [] => if path = [] then some (a, ZERO_SIZE) else none
  | a, e :: es =>
    if e.name = path then some (a, UInt64.ofNat e.data.length)
    else if e.name = [] then none
    else scan_entries path (a + UInt64.ofNat e.span) es

section Scan

variable {m : Mm} {mem : UInt64 → UInt8} {path : List UInt8} {es : List TarEntry}

/-- The loop goes from entry to entry, as long as the one before has a name. -/
theorem initrd_scan_entries {fuel : ℕ} {header a : UInt64} (h : EntriesAt mem a es) (hp : path.length ≤ 99)
    (hh : mem header ≠ 0) (hf : es.length + 2 ≤ fuel) :
    initrd_scan mem path fuel header a = .ok (scan_entries path a es) := by
  induction es generalizing fuel header a with
  | nil =>
    obtain ⟨fuel, rfl⟩ : ∃ k, fuel = k + 2 := ⟨fuel - 2, by simp at hf; omega⟩
    have h0 : mem a = 0 := by simpa using h 0 (by decide)
    have hcmp : strcmp_eq mem a path = .ok (decide ([] = path)) :=
      strcmp_eq_name (by decide) hp (by simp) (by simp) (by simpa using h0)
    have hsize : getsize mem (a + TAR_SIZE_OFFSET) = ZERO_SIZE := getsize_zero fun i hi => by
      have := h (124 + i) (by omega)
      rwa [UInt64.ofNat_add, ← UInt64.add_assoc] at this
    rw [initrd_scan, if_neg hh]
    refine bind_ok.2 ⟨_, hcmp, ?_⟩
    by_cases hpath : path = []
    · simp [hpath, scan_entries, hsize]
    · have hne : ¬[] = path := fun he => hpath he.symm
      simp [hne, hpath, scan_entries, initrd_scan, h0]
  | cons e es ih =>
    obtain ⟨fuel, rfl⟩ : ∃ k, fuel = k + 1 := ⟨fuel - 1, by simp at hf; omega⟩
    obtain ⟨hok, hat, hrest⟩ := h
    have hcmp := strcmp_eq_name hok.name_le hp hat.name hok.name_ne hat.nul
    rw [initrd_scan, if_neg hh]
    refine bind_ok.2 ⟨_, hcmp, ?_⟩
    rw [hat.getsize hok, hok.span_eq]
    by_cases hname : e.name = path
    · simp [hname, scan_entries]
    · simp only [hname, decide_false, scan_entries, if_false]
      by_cases hnil : e.name = []
      · obtain ⟨fuel, rfl⟩ : ∃ k, fuel = k + 1 := ⟨fuel - 1, by simp at hf; omega⟩
        simp [hnil, initrd_scan, (hat.first hok).2 hnil]
      · rw [if_neg hnil]
        exact ih hrest (fun h0 => hnil ((hat.first hok).1 h0)) (by simp at hf; omega)

/-- The file that a path names: the first entry of that name. -/
def file (es : List TarEntry) (path : List UInt8) : Option TarEntry := es.find? fun e => e.name = path

/-- Every entry in front of the file has a name. -/
def NoGap (es : List TarEntry) (path : List UInt8) : Prop :=
  ∀ e ∈ es.takeWhile fun e => e.name ≠ path, e.name ≠ []

theorem file_cons {e : TarEntry} (hn : e.name ≠ path) : file (e :: es) path = file es path := by
  simp [file, hn]

theorem noGap_cons {e : TarEntry} (hn : e.name ≠ path) :
    NoGap (e :: es) path ↔ e.name ≠ [] ∧ NoGap es path := by
  simp [NoGap, hn]

/-- **A file** is found when there is no gap in front of it. -/
theorem scan_entries_file {a : UInt64} {e : TarEntry} (h : EntriesAt mem a es) (hf : file es path = some e) :
    (NoGap es path → ∃ b, scan_entries path a es = some (b, UInt64.ofNat e.data.length) ∧ e.Ok ∧ e.At mem b) ∧
      (¬NoGap es path → scan_entries path a es = none) := by
  induction es generalizing a with
  | nil => cases hf
  | cons d es ih =>
    obtain ⟨hok, hat, hrest⟩ := h
    by_cases hn : d.name = path
    · obtain rfl : d = e := by simpa [file, hn] using hf
      refine ⟨fun _ => ⟨a, by simp [scan_entries, hn], hok, hat⟩, fun hg => absurd ?_ hg⟩
      simp [NoGap, hn]
    · rw [file_cons hn] at hf
      rw [noGap_cons hn, scan_entries, if_neg hn]
      by_cases hnil : d.name = []
      · exact ⟨fun hg => absurd hnil hg.1, fun _ => if_pos hnil⟩
      · rw [if_neg hnil]
        exact ⟨fun hg => (ih hrest hf).1 hg.2, fun hg => (ih hrest hf).2 fun hg' => hg ⟨hnil, hg'⟩⟩

/-- **A file that is not there** is not found, unless the path is empty. -/
theorem scan_entries_no_file {a : UInt64} (hf : file es path = none) :
    (path ≠ [] → scan_entries path a es = none) ∧
      (path = [] → ∃ b, scan_entries path a es = some (b, ZERO_SIZE)) := by
  induction es generalizing a with
  | nil => exact ⟨fun hp => if_neg hp, fun hp => ⟨a, if_pos hp⟩⟩
  | cons d es ih =>
    have hn : d.name ≠ path := fun he => by simp [file, he] at hf
    rw [file_cons hn] at hf
    rw [scan_entries, if_neg hn]
    by_cases hnil : d.name = []
    · rw [if_pos hnil]
      exact ⟨fun _ => rfl, fun hp => absurd (hnil.trans hp.symm) hn⟩
    · rw [if_neg hnil]
      exact ih hf

theorem length_le_spans (es : List TarEntry) : es.length ≤ (es.map TarEntry.span).sum := by
  induction es with
  | nil => simp
  | cons e es ih =>
    simp only [List.length_cons, List.map_cons, List.sum_cons, TarEntry.span]
    omega

/-- **The search in an archive**: nothing is found when the first entry has no name. -/
theorem Archive.find (h : Archive m es) (hp : path.length ≤ 99) :
    initrd_find m path =
      .ok (if ∃ e ∈ es.head?, e.name ≠ [] then scan_entries path (m.initrd + 0x200) es else none) := by
  have hlen := length_le_spans es
  have hfits := h.fits
  unfold initrd_find
  rw [if_neg (by omega)]
  obtain ⟨fuel, hfuel, hle⟩ : ∃ fuel, 2 ^ 128 = fuel + 1 ∧ es.length + 2 ≤ fuel + 1 :=
    ⟨2 ^ 128 - 1, by decide, by omega⟩
  have hentries := h.entries
  by_cases hfirst : m.module (m.initrd + 0x200) = 0
  · have hno : ¬∃ e ∈ es.head?, e.name ≠ [] := by
      rintro ⟨e, he, hne⟩
      cases es with
      | nil => cases he
      | cons d es =>
        obtain rfl := Option.some.inj he
        exact hne ((hentries.2.1.first hentries.1).1 hfirst)
    rw [if_neg hno, hfuel, initrd_scan, if_pos hfirst]
  · have hyes : ∃ e ∈ es.head?, e.name ≠ [] := by
      cases es with
      | nil => exact absurd (by simpa using hentries 0 (by decide)) hfirst
      | cons d es => exact ⟨d, rfl, fun hn => hfirst ((hentries.2.1.first hentries.1).2 hn)⟩
    rw [if_pos hyes, hfuel]
    exact initrd_scan_entries hentries hp hfirst hle

end Scan

/-! ### Opening a file -/

/-- Memory for `n_bytes` can be had, at `p`. -/
def Mm.Has (m : Mm) (n_bytes : UInt64) (p : ℕ) : Prop := ∃ m₁, kmalloc m n_bytes = .ok (p, m₁) ∧ p ≠ 0

/-- The size of the buffer for a file. -/
def TarEntry.buffer (e : TarEntry) : UInt64 := UInt64.ofNat e.data.length + 1

/-- **The path is opened as it should be**: a buffer with the data of the file it names and a zero
byte, or `NULL` when there is no such file or no memory for the buffer. -/
def Opens (m : Mm) (es : List TarEntry) (path : List UInt8) : Prop :=
  ∃ p m', initrd_open m path = .ok (p, m') ∧ (file es path = none → p = 0) ∧
    ∀ e, file es path = some e →
      ((∃ q, m.Has e.buffer q) → m.Has e.buffer p ∧
        (∀ i, (h : i < e.data.length) → m'.bytes (p + i) = e.data.get ⟨i, h⟩) ∧
        m'.bytes (p + e.data.length) = 0) ∧
      ((¬∃ q, m.Has e.buffer q) → p = 0)

/-- The search comes to the file: the first entry has a name, and so has every one in front of it. -/
def InReach (es : List TarEntry) (path : List UInt8) : Prop :=
  (∃ e ∈ es.head?, e.name ≠ []) ∧ NoGap es path

/-- **The condition**: a file that is there is in reach exactly when there is memory for it; and the
path of a file that is not there is not empty, or the archive is. -/
structure Openable (m : Mm) (es : List TarEntry) (path : List UInt8) : Prop where
  file : ∀ e, Iridium.file es path = some e → (InReach es path ↔ ∃ q, m.Has e.buffer q)
  no_file : Iridium.file es path = none → path ≠ [] ∨ es = []

section Open

variable {m : Mm} {path : List UInt8} {es : List TarEntry} {e : TarEntry}

theorem kmalloc_module {m₁ : Mm} {n_bytes : UInt64} {p : ℕ} (h : kmalloc m n_bytes = .ok (p, m₁)) :
    m₁.module = m.module := by
  unfold kmalloc at h
  split at h
  · obtain ⟨-, rfl⟩ := Prod.mk.inj (pure_ok.1 h)
    rfl
  obtain ⟨⟨region, heap⟩, -, h⟩ := bind_ok.1 h
  obtain ⟨vm, -, h⟩ := bind_ok.1 h
  dsimp only at h
  split at h
  · obtain ⟨-, rfl⟩ := Prod.mk.inj (pure_ok.1 h)
    rfl
  · obtain ⟨-, rfl⟩ := Prod.mk.inj (pure_ok.1 h)
    rfl

/-- A buffer returns exactly when there is memory for it. -/
theorem get_buf_iff {b : UInt64} {p : ℕ} :
    (∃ m', get_buf m b (UInt64.ofNat e.data.length) = .ok (p, m')) ↔ m.Has e.buffer p := by
  unfold get_buf Mm.Has TarEntry.buffer
  constructor
  · rintro ⟨m', h⟩
    obtain ⟨⟨buf, m₁⟩, hk, h⟩ := bind_ok.1 h
    dsimp only at h
    split at h
    · cases h
    next hb =>
      obtain ⟨rfl, -⟩ := Prod.mk.inj (pure_ok.1 h)
      exact ⟨m₁, hk, hb⟩
  · rintro ⟨m₁, hk, hp⟩
    simp only [hk, bind, Except.bind, hp, if_false]
    exact ⟨_, rfl⟩

/-- **The buffer** holds the data of the entry, and a zero byte. -/
theorem get_buf_data {m' : Mm} {b : UInt64} {p : ℕ} (hok : e.Ok) (hat : e.At m.module b)
    (h : get_buf m b (UInt64.ofNat e.data.length) = .ok (p, m')) :
    (∀ i, (h : i < e.data.length) → m'.bytes (p + i) = e.data.get ⟨i, h⟩) ∧
      m'.bytes (p + e.data.length) = 0 := by
  have hlen : (UInt64.ofNat e.data.length).toNat = e.data.length :=
    UInt64.toNat_ofNat_of_lt' (Nat.lt_trans hok.size_lt (by decide))
  obtain ⟨⟨buf, m₁⟩, hk, h⟩ := bind_ok.1 h
  dsimp only at h
  split at h
  · cases h
  · obtain ⟨rfl, rfl⟩ := Prod.mk.inj (pure_ok.1 h)
    refine ⟨fun i hi => ?_, by simp [hlen]⟩
    simp only [hlen, Nat.le_add_right, true_and, Nat.add_lt_add_iff_left, hi, if_true, Nat.add_sub_cancel_left,
      kmalloc_module hk]
    exact hat.data i hi

/-- No heap has memory for what the zero block seems to hold. -/
theorem get_buf_zero {b : UInt64} (h0 : m.heap.bytes_allocated = 0) : get_buf m b ZERO_SIZE = .error .fault := by
  have hk : kmalloc m (ZERO_SIZE + 1) = .ok (0, m) := by
    unfold kmalloc
    rw [h0, if_pos (by decide)]
    rfl
  unfold get_buf
  rw [hk]
  rfl

theorem EntriesAt.ok {mem : UInt64 → UInt8} {a : UInt64} (h : EntriesAt mem a es) : ∀ e ∈ es, e.Ok := by
  induction es generalizing a with
  | nil => simp
  | cons d es ih =>
    intro e he
    rcases List.mem_cons.1 he with rfl | he
    · exact h.1
    · exact ih h.2.2 e he

/-- The path of a file is no longer than its name. -/
theorem Archive.path_le (h : Archive m es) (hf : file es path = some e) : path.length ≤ 99 := by
  have hname : e.name = path := by simpa using List.find?_some hf
  rw [← hname]
  exact (h.entries.ok e (List.mem_of_find?_eq_some hf)).name_le

theorem initrd_open_none (h : initrd_find m path = .ok none) : initrd_open m path = .ok (0, m) := by
  unfold initrd_open
  rw [h]
  rfl

theorem initrd_open_some {b sz : UInt64} (h : initrd_find m path = .ok (some (b, sz))) :
    initrd_open m path = get_buf m b sz := by
  unfold initrd_open
  rw [h]
  rfl

/-- **A file in reach** is opened when there is memory for it. -/
theorem Archive.opens_file (h : Archive m es) (hf : file es path = some e) :
    Opens m es path ↔ (InReach es path ↔ ∃ q, m.Has e.buffer q) := by
  have hfind := h.find (h.path_le hf)
  obtain ⟨hin, hout⟩ := scan_entries_file h.entries hf
  by_cases hreach : InReach es path
  · obtain ⟨b, hscan, hok, hat⟩ := hin hreach.2
    rw [if_pos hreach.1, hscan] at hfind
    have hopen := initrd_open_some hfind
    constructor
    · rintro ⟨p, m', ho, -⟩
      rw [hopen] at ho
      exact ⟨fun _ => ⟨p, get_buf_iff.1 ⟨m', ho⟩⟩, fun _ => hreach⟩
    · intro hiff
      obtain ⟨q, hq⟩ := hiff.1 hreach
      obtain ⟨m', ho⟩ := get_buf_iff (b := b).2 hq
      refine ⟨q, m', hopen.trans ho, fun hn => absurd (hf.symm.trans hn) (by simp), fun d hd => ?_⟩
      obtain rfl := Option.some.inj (hf.symm.trans hd)
      exact ⟨fun _ => ⟨hq, get_buf_data hok hat ho⟩, fun hn => absurd ⟨q, hq⟩ hn⟩
  · have hnone : initrd_find m path = .ok none := by
      rw [hfind]
      split
      next hhead => rw [hout fun hg => hreach ⟨hhead, hg⟩]
      next => rfl
    have hopen := initrd_open_none hnone
    constructor
    · rintro ⟨p, m', ho, -, hspec⟩
      obtain ⟨rfl, -⟩ := Prod.mk.inj (Except.ok.inj (hopen.symm.trans ho))
      refine ⟨fun hr => absurd hr hreach, fun hq => ?_⟩
      obtain ⟨-, -, hp⟩ := ((hspec e hf).1 hq).1
      exact absurd rfl hp
    · intro hiff
      have hno : ¬∃ q, m.Has e.buffer q := fun hq => hreach (hiff.2 hq)
      refine ⟨0, m, hopen, fun _ => rfl, fun d hd => ?_⟩
      obtain rfl := Option.some.inj (hf.symm.trans hd)
      exact ⟨fun hq => absurd hq hno, fun _ => rfl⟩

/-- **A file that is not there** is not opened, unless the path is empty and the archive is not. -/
theorem Archive.opens_no_file (h : Archive m es) (h0 : m.heap.bytes_allocated = 0)
    (hf : file es path = none) : Opens m es path ↔ path ≠ [] ∨ es = [] := by
  have hspec : ∀ m', initrd_open m path = .ok (0, m') → Opens m es path := fun m' ho =>
    ⟨0, m', ho, fun _ => rfl, fun e he => absurd (hf.symm.trans he) (by simp)⟩
  obtain ⟨hno, hzero⟩ := scan_entries_no_file (a := m.initrd + 0x200) hf
  by_cases hp : path = []
  · have hfind : initrd_find m path = _ := h.find (by simp [hp])
    cases es with
    | nil =>
      rw [if_neg (by simp)] at hfind
      exact ⟨fun _ => .inr rfl, fun _ => hspec _ (initrd_open_none hfind)⟩
    | cons e es =>
      have hname : e.name ≠ [] := fun hn => by simp [file, hn, hp] at hf
      obtain ⟨b, hb⟩ := hzero hp
      rw [if_pos ⟨e, rfl, hname⟩, hb] at hfind
      have hopen := (initrd_open_some hfind).trans (get_buf_zero h0)
      constructor
      · rintro ⟨p, m', ho, -⟩
        rw [hopen] at ho
        cases ho
      · rintro (hne | hnil)
        · exact absurd hp hne
        · cases hnil
  · refine ⟨fun _ => .inl hp, fun _ => ?_⟩
    by_cases hle : path.length ≤ 99
    · have hfind := h.find hle
      rw [hno hp, ite_self] at hfind
      exact hspec _ (initrd_open_none hfind)
    · exact hspec _ (initrd_open_none (by unfold initrd_find; rw [if_pos (by omega)]))

end Open

/-- **A path is opened as it should be** if and only if the condition is met. -/
theorem initrd_open_iff {m : Mm} {es : List TarEntry} {path : List UInt8} (h : Archive m es)
    (h0 : m.heap.bytes_allocated = 0) : Opens m es path ↔ Openable m es path := by
  cases hf : file es path with
  | some e =>
    rw [h.opens_file hf]
    refine ⟨fun hiff => ⟨fun d hd => ?_, fun hn => ?_⟩, fun ho => ho.file e hf⟩
    · obtain rfl := Option.some.inj (hf.symm.trans hd)
      exact hiff
    · rw [hf] at hn
      cases hn
  | none =>
    rw [h.opens_no_file h0 hf]
    exact ⟨fun hp => ⟨fun d hd => absurd (hf.symm.trans hd) (by simp), fun _ => hp⟩, fun ho => ho.no_file hf⟩

/-- The files of a small archive: `a` of one byte, `b` of none and `ab` of two. -/
def smallFiles : List TarEntry := [⟨[97], [7]⟩, ⟨[98], []⟩, ⟨[97, 98], [8, 9]⟩]

/-- Memory with this archive. -/
def smallArchive : Mm :=
  { bareMm with
    initrd := 0x100000
    module := fun a =>
      if a = 0x100000 then 100
      else if 0x10007C ≤ a ∧ a < 0x100087 then 48
      else if a = 0x100200 then 97
      else if 0x10027C ≤ a ∧ a < 0x100286 then 48
      else if a = 0x100286 then 49
      else if a = 0x100400 then 7
      else if a = 0x100600 then 98
      else if 0x10067C ≤ a ∧ a < 0x100687 then 48
      else if a = 0x100800 then 97
      else if a = 0x100801 then 98
      else if 0x10087C ≤ a ∧ a < 0x100886 then 48
      else if a = 0x100886 then 50
      else if a = 0x100A00 then 8
      else if a = 0x100A01 then 9
      else 0 }

theorem smallArchive_start : ∃ m, kheap_init smallArchive = .ok m ∧ Archive m smallFiles ∧
    m.heap.bytes_allocated = 0 ∧ ∃ q, m.Has 3 q := by
  have hinit : kheap_init smallArchive = .ok _ := bind_ok.2 ⟨_, bareMm_vm_map (.inr rfl), rfl⟩
  refine ⟨_, hinit, ⟨⟨⟨[100], []⟩, ?_, rfl, ?_⟩, ?_, by decide⟩, rfl, ?_⟩
  · exact ⟨by decide, by simp, by norm_num⟩
  · exact ⟨by decide +kernel, by decide +kernel, by decide +kernel, by decide +kernel⟩
  · refine ⟨⟨by decide, by simp, by norm_num⟩, ?_, ⟨by decide, by simp, by norm_num⟩, ?_,
      ⟨by decide, by simp, by norm_num⟩, ?_, ?_⟩
    · exact ⟨by decide +kernel, by decide +kernel, by decide +kernel, by decide +kernel⟩
    · exact ⟨by decide +kernel, by decide +kernel, by decide +kernel, by decide +kernel⟩
    · exact ⟨by decide +kernel, by decide +kernel, by decide +kernel, by decide +kernel⟩
    · unfold EntriesAt
      decide +kernel
  · have hk : answers (do let m ← kheap_init smallArchive; kmalloc m 3) (fun r => r.1 ≠ 0) = true := by
      decide +kernel
    obtain ⟨⟨q, m₁⟩, hk, hq⟩ := answers_iff.1 hk
    rw [hinit] at hk
    exact ⟨q, m₁, hk, of_decide_eq_true hq⟩

/-- The last of three files is opened, and a file that is not there is not. -/
theorem initrd_open_iff_small : ∃ m, Archive m smallFiles ∧ Opens m smallFiles [97, 98] ∧
    Opens m smallFiles [99] := by
  obtain ⟨m, -, h, h0, hq⟩ := smallArchive_start
  refine ⟨m, h, (initrd_open_iff h h0).2 ⟨fun e he => ?_, fun hno => ?_⟩,
    (initrd_open_iff h h0).2 ⟨fun e he => ?_, fun _ => .inl (by decide)⟩⟩
  · obtain rfl : e = ⟨[97, 98], [8, 9]⟩ := by simpa [file, smallFiles, eq_comm] using he
    have hreach : InReach smallFiles [97, 98] := ⟨⟨_, rfl, by decide⟩, by simp [NoGap, smallFiles]⟩
    exact ⟨fun _ => hq, fun _ => hreach⟩
  · simp [file, smallFiles] at hno
  · simp [file, smallFiles] at he

/-- The empty path names no file of this archive, and is taken for the zero block. -/
theorem not_opens : ¬∀ m es path, Archive m es → m.heap.bytes_allocated = 0 → Opens m es path := by
  obtain ⟨m, -, h, h0, -⟩ := smallArchive_start
  intro hall
  have hno : file smallFiles [] = none := by simp [file, smallFiles]
  rcases (h.opens_no_file h0 hno).1 (hall m _ [] h h0) with hp | hnil
  · exact hp rfl
  · cases hnil

end Iridium
