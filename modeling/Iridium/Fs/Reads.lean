import Iridium.Fs.Scan
import Iridium.Lib.Traced

/-!
# What is read of an archive

The functions of `fs/initrd.c` again, which now tell the addresses they read. None is compared with the end
of the module, although the bootloader has recorded its size: what is read lies in the module when the
headers that the search gets to do, and the data of the file that is found (`reads_inside_iff`).
-/

namespace Iridium

open Lib

/-- A function that tells which bytes of memory it reads. -/
abbrev Reader (α : Type) := Traced UInt64 Halt α

/-- `strlen`. -/
def strlen_told (mem : UInt64 → UInt8) : ℕ → UInt64 → Reader ℕ
  | 0, _ => Traced.lift (.error .endless)
  | fuel + 1, a => do
    Traced.tell a
    if mem a = 0 then pure 0
    else do
      let n ← strlen_told mem fuel (a + 1)
      return n + 1

/-- The loop of `strcmp`. -/
def bytes_eq_told (mem : UInt64 → UInt8) : UInt64 → List UInt8 → Reader Bool
  | _, [] => pure true
  | a, b :: bs => do
    Traced.tell a
    if mem a == b then bytes_eq_told mem (a + 1) bs else pure false

/-- `strcmp(str1, str2) == 0`. -/
def strcmp_told (mem : UInt64 → UInt8) (str1 : UInt64) (str2 : List UInt8) : Reader Bool := do
  let str1_len ← strlen_told mem (2 ^ 64) str1
  if UInt32.ofNat str1_len ≠ UInt32.ofNat str2.length then pure false
  else bytes_eq_told mem str1 str2

/-- The loop of `getsize`. -/
def getsize_from_told (mem : UInt64 → UInt8) (inp : UInt64) : ℕ → UInt64 → UInt64 → Reader UInt64
  | 0, _, size => pure size
  | j + 1, count, size => do
    Traced.tell (inp + UInt64.ofNat j)
    getsize_from_told mem inp j (count * 8) (size + digit (mem (inp + UInt64.ofNat j)) * count)

/-- `getsize`. -/
def getsize_told (mem : UInt64 → UInt8) (inp : UInt64) : Reader UInt64 := getsize_from_told mem inp 11 1 0

/-- `n` bytes one behind the other. -/
def read_all (a : UInt64) (n : ℕ) : Reader Unit := Traced.tells (fun i => a + UInt64.ofNat i) n

/-- The copy of `get_buf` to `NULL`, of `n` bytes from byte `i` on, up to a store that faults. Low memory may
hold tables, and the archive itself. -/
def copy_low_told (data : UInt64) : ℕ → Vm → (UInt64 → UInt8) → UInt64 → Reader (ℕ × Mm)
  | 0, _, _, _ => Traced.lift (.error .fault)
  | n + 1, s, mem, i => do
    Traced.tell (data + i)
    let b := mem (data + i)
    let s' ← Traced.lift (write8 s i b)
    copy_low_told data n s' (fun a => if same_byte s i a then b else mem a) (i + 1)

/-- `get_buf`. -/
def get_buf_told (m : Mm) (data n_bytes : UInt64) : Reader (ℕ × Mm) := do
  let data := data + 0x200
  let (buf, m) ← Traced.lift (kmalloc m (n_bytes + 1))
  if buf = 0 then copy_low_told data n_bytes.toNat m.vm m.module 0
  else do
    read_all data n_bytes.toNat
    let bytes := fun a =>
      if buf ≤ a ∧ a < buf + n_bytes.toNat then m.module (data + UInt64.ofNat (a - buf))
      else if a = buf + n_bytes.toNat then 0
      else m.bytes a
    return (buf, { m with bytes })

/-- The loop of `initrd_open`. -/
def initrd_scan_told (mem : UInt64 → UInt8) (path : List UInt8) :
    ℕ → UInt64 → UInt64 → Reader (Option (UInt64 × UInt64))
  | 0, _, _ => Traced.lift (.error .endless)
  | fuel + 1, header, address => do
    Traced.tell header
    if mem header = 0 then pure none
    else do
      let header := address
      let sz ← getsize_told mem (header + TAR_SIZE_OFFSET)
      let same ← strcmp_told mem header path
      if same then pure (some (address, sz))
      else initrd_scan_told mem path fuel header (address + ((sz + 511) / 512 + 1) * 512)

/-- The search of `initrd_open`. -/
def initrd_find_told (m : Mm) (path : List UInt8) : Reader (Option (UInt64 × UInt64)) :=
  if path.length > 99 then pure none
  else initrd_scan_told m.module path (2 ^ 128) (m.initrd + 0x200) (m.initrd + 0x200)

/-- `initrd_open`. -/
def initrd_open_told (m : Mm) (path : List UInt8) : Reader (ℕ × Mm) := do
  match ← initrd_find_told m path with
  | none => return (0, m)
  | some (address, sz) => get_buf_told m address sz

section Result

variable {mem : UInt64 → UInt8} {path : List UInt8} {a inp : UInt64} {fuel n : ℕ}

theorem strlen_told_result : (strlen_told mem fuel a).result = ofFuel (strlen_at mem fuel a) := by
  induction fuel generalizing a with
  | zero => rfl
  | succ fuel ih =>
    rw [strlen_told, strlen_at, Traced.result_bind, Traced.result_tell]
    show (if mem a = 0 then pure 0 else _ : Reader ℕ).result = _
    split
    · rfl
    · rw [Traced.result_bind, ih]
      cases strlen_at mem fuel (a + 1) <;> rfl

theorem bytes_eq_told_result : (bytes_eq_told mem a path).result = .ok (bytes_eq mem a path) := by
  induction path generalizing a with
  | nil => rfl
  | cons b bs ih =>
    rw [bytes_eq_told, bytes_eq, Traced.result_bind, Traced.result_tell]
    show (if (mem a == b) = true then _ else pure false : Reader Bool).result = _
    split
    next h => rw [ih, h, Bool.true_and]
    next h => rw [Bool.eq_false_iff.2 h]; rfl

theorem strcmp_told_result : (strcmp_told mem a path).result = strcmp_eq mem a path := by
  rw [strcmp_told, strcmp_eq, Traced.result_bind, strlen_told_result]
  cases strlen_at mem (2 ^ 64) a with
  | none => rfl
  | some n =>
    show (if UInt32.ofNat n ≠ UInt32.ofNat path.length then pure false
        else bytes_eq_told mem a path : Reader Bool).result =
      if UInt32.ofNat n ≠ UInt32.ofNat path.length then pure false else pure (bytes_eq mem a path)
    split
    · rfl
    · exact bytes_eq_told_result

theorem getsize_from_told_result {count size : UInt64} :
    (getsize_from_told mem inp n count size).result = .ok (getsize_from mem inp n count size) := by
  induction n generalizing count size with
  | zero => rfl
  | succ n ih =>
    rw [getsize_from_told, getsize_from, Traced.result_bind, Traced.result_tell]
    exact ih

theorem getsize_told_result : (getsize_told mem inp).result = .ok (getsize mem inp) := getsize_from_told_result

theorem read_all_result : (read_all a n).result = .ok () := Traced.result_tells _ n

/-- A store fails by a fault. -/
theorem write8_cases (s : Vm) (i : UInt64) (b : UInt8) : write8 s i b = .error .fault ∨ ∃ s', write8 s i b = .ok s' := by
  unfold write8
  split
  · exact .inl rfl
  · exact .inr ⟨_, rfl⟩

/-- The copy to `NULL` does not come back. -/
theorem copy_low_told_result {data i : UInt64} {s : Vm} : (copy_low_told data n s mem i).result = .error .fault := by
  induction n generalizing s mem i with
  | zero => rfl
  | succ n ih =>
    rw [copy_low_told, Traced.result_tell_bind, Traced.result_bind, Traced.result_lift]
    rcases write8_cases s i (mem (data + i)) with h | ⟨s', h⟩
    · rw [h]
      rfl
    · rw [h]
      exact ih

theorem get_buf_told_result {m : Mm} {data n_bytes : UInt64} :
    (get_buf_told m data n_bytes).result = get_buf m data n_bytes := by
  rw [get_buf_told, get_buf, Traced.result_bind, Traced.result_lift]
  cases kmalloc m (n_bytes + 1) with
  | error e => rfl
  | ok r =>
    obtain ⟨buf, m₁⟩ := r
    by_cases hb : buf = 0
    · subst hb
      exact copy_low_told_result
    · simp only [bind, Except.bind, if_neg hb]
      rw [read_all_result]
      rfl

theorem initrd_scan_told_result {header address : UInt64} :
    (initrd_scan_told mem path fuel header address).result = initrd_scan mem path fuel header address := by
  induction fuel generalizing header address with
  | zero => rfl
  | succ fuel ih =>
    rw [initrd_scan_told, initrd_scan_succ, Traced.result_bind, Traced.result_tell]
    show (if mem header = 0 then pure none else _ : Reader _).result = _
    split
    · rfl
    · rw [Traced.result_bind, getsize_told_result]
      show (strcmp_told mem address path >>= _).result = _
      rw [Traced.result_bind, strcmp_told_result]
      cases strcmp_eq mem address path with
      | error e => rfl
      | ok same =>
        cases same with
        | true => rfl
        | false => exact ih

theorem initrd_find_told_result {m : Mm} : (initrd_find_told m path).result = initrd_find m path := by
  unfold initrd_find_told initrd_find
  split
  · rfl
  · exact initrd_scan_told_result

/-- **What is answered** is what the functions answer that tell nothing. -/
theorem initrd_open_told_result {m : Mm} : (initrd_open_told m path).result = initrd_open m path := by
  rw [initrd_open_told, initrd_open, Traced.result_bind, initrd_find_told_result]
  cases initrd_find m path with
  | error e => rfl
  | ok o =>
    cases o with
    | none => rfl
    | some e => exact get_buf_told_result

end Result

/-! ### What is read -/

section Reads

variable {mem : UInt64 → UInt8} {path : List UInt8} {a inp : UInt64} {fuel n : ℕ} {P : UInt64 → Prop}

theorem read_all_all : (read_all a n).All P ↔ ∀ i < n, P (a + UInt64.ofNat i) := Traced.all_tells

theorem getsize_from_told_all {count size : UInt64} :
    (getsize_from_told mem inp n count size).All P ↔ ∀ j < n, P (inp + UInt64.ofNat j) := by
  induction n generalizing count size with
  | zero => exact iff_of_true (Traced.all_pure size) fun i hi => absurd hi (Nat.not_lt_zero i)
  | succ n ih => rw [getsize_from_told, Traced.all_tell_bind, ih, Nat.forall_lt_succ_right, and_comm]

theorem getsize_told_all : (getsize_told mem inp).All P ↔ ∀ j < 11, P (inp + UInt64.ofNat j) := getsize_from_told_all

/-- A string is read up to its zero byte. -/
theorem strlen_told_all : (strlen_told mem fuel a).All P ↔
    ∀ i < fuel, (∀ j < i, mem (a + UInt64.ofNat j) ≠ 0) → P (a + UInt64.ofNat i) := by
  induction fuel generalizing a with
  | zero => exact iff_of_true (Traced.all_lift _) fun i hi => absurd hi (Nat.not_lt_zero i)
  | succ fuel ih =>
    have hself : a + UInt64.ofNat 0 = a := UInt64.add_zero a
    rw [strlen_told, Traced.all_tell_bind]
    by_cases h0 : mem a = 0
    · rw [if_pos h0, and_iff_left (Traced.all_pure _)]
      constructor
      · intro ha i _ hne
        cases i with
        | zero => rwa [hself]
        | succ i => exact absurd (hself.symm ▸ h0) (hne 0 (Nat.succ_pos i))
      · intro hall
        exact hself ▸ hall 0 (Nat.succ_pos fuel) fun j hj => absurd hj (Nat.not_lt_zero j)
    · rw [if_neg h0, Traced.all_bind, and_iff_left fun n _ => Traced.all_pure _, ih]
      constructor
      · rintro ⟨ha, hall⟩ i hi hne
        cases i with
        | zero => rwa [hself]
        | succ i =>
          rw [← add_one_ofNat]
          exact hall i (by omega) fun j hj => add_one_ofNat a j ▸ hne (j + 1) (by omega)
      · intro hall
        refine ⟨hself ▸ hall 0 (Nat.succ_pos fuel) fun j hj => absurd hj (Nat.not_lt_zero j), fun i hi hne => ?_⟩
        rw [add_one_ofNat]
        refine hall (i + 1) (by omega) fun j hj => ?_
        cases j with
        | zero => rwa [hself]
        | succ j => exact add_one_ofNat a j ▸ hne j (by omega)

theorem bytes_eq_told_all (h : ∀ i < path.length, P (a + UInt64.ofNat i)) : (bytes_eq_told mem a path).All P := by
  induction path generalizing a with
  | nil => exact Traced.all_pure _
  | cons b bs ih =>
    rw [bytes_eq_told, Traced.all_tell_bind]
    refine ⟨UInt64.add_zero a ▸ h 0 (by simp), ?_⟩
    split
    · exact ih fun i hi => add_one_ofNat a i ▸ h (i + 1) (by simpa using hi)
    · exact Traced.all_pure _

/-- **A comparison** reads no more than the length of the string. -/
theorem strcmp_told_all (hp : path.length ≤ 99) :
    (strcmp_told mem a path).All P ↔ (strlen_told mem (2 ^ 64) a).All P := by
  rw [strcmp_told, Traced.all_bind]
  refine and_iff_left_of_imp fun hall n hn => ?_
  rw [strlen_told_result, ofFuel_ok] at hn
  split
  · exact Traced.all_pure _
  next heq =>
    -- the length is that of the path, but for multiples of `2^32`
    have hle : path.length ≤ n := by
      have h := congrArg UInt32.toNat (Decidable.not_not.1 heq)
      rw [UInt32.toNat_ofNat', UInt32.toNat_ofNat', Nat.mod_eq_of_lt (Nat.lt_of_le_of_lt hp (by decide))] at h
      rw [← h]
      exact Nat.mod_le _ _
    obtain ⟨-, hne, -⟩ := strlen_at_iff.1 hn
    exact bytes_eq_told_all fun i hi => strlen_told_all.1 hall i (by omega) fun j hj => hne j (by omega)

end Reads

/-! ### Inside the module -/

/-- The address is one of the `size` bytes from `start` on. -/
def Inside (start size a : UInt64) : Prop := a - start < size

instance (start size a : UInt64) : Decidable (Inside start size a) := inferInstanceAs (Decidable (_ < _))

/-- So are the `n` bytes from the address on. -/
def RangeInside (start size a : UInt64) (n : ℕ) : Prop := n = 0 ∨ (a - start).toNat + n ≤ size.toNat

instance (start size a : UInt64) (n : ℕ) : Decidable (RangeInside start size a n) :=
  inferInstanceAs (Decidable (_ ∨ _))

section Inside

variable {start size a : UInt64} {n : ℕ}

theorem inside_iff : Inside start size a ↔ (a - start).toNat < size.toNat := UInt64.lt_iff_toNat_lt

/-- How far from the start the bytes behind an address are. -/
theorem offset_add (a start : UInt64) (i : ℕ) :
    (a + UInt64.ofNat i - start).toNat = ((a - start).toNat + i) % 2 ^ 64 := by
  have h : a + UInt64.ofNat i - start = a - start + UInt64.ofNat i := by
    rw [UInt64.sub_eq_iff_eq_add, UInt64.add_assoc, UInt64.add_comm _ start, ← UInt64.add_assoc,
      UInt64.sub_add_cancel]
  rw [h, UInt64.toNat_add, UInt64.toNat_ofNat', Nat.add_mod_mod]

theorem RangeInside.mem (h : RangeInside start size a n) {i : ℕ} (hi : i < n) :
    Inside start size (a + UInt64.ofNat i) := by
  have hlt := size.toNat_lt
  rcases h with rfl | h
  · exact absurd hi (Nat.not_lt_zero i)
  · rw [inside_iff, offset_add, Nat.mod_eq_of_lt (by omega)]
    omega

/-- Bytes one behind the other that do not all lie in the module: one of them is the first behind it. -/
theorem exists_outside (h : ¬RangeInside start size a n) :
    ∃ i < n, ¬Inside start size (a + UInt64.ofNat i) ∧ i ≤ size.toNat - (a - start).toNat := by
  have hlt := size.toNat_lt
  have hn : n ≠ 0 := fun h0 => h (.inl h0)
  have hgt : size.toNat < (a - start).toNat + n := Nat.not_le.1 fun hle => h (.inr hle)
  by_cases ha : (a - start).toNat < size.toNat
  · refine ⟨size.toNat - (a - start).toNat, by omega, ?_, Nat.le_refl _⟩
    rw [inside_iff, offset_add, Nat.add_sub_cancel' (Nat.le_of_lt ha), Nat.mod_eq_of_lt hlt]
    exact Nat.lt_irrefl _
  · refine ⟨0, by omega, ?_, Nat.zero_le _⟩
    rw [inside_iff, show a + UInt64.ofNat 0 = a from UInt64.add_zero a]
    exact ha

theorem rangeInside_iff : (∀ i < n, Inside start size (a + UInt64.ofNat i)) ↔ RangeInside start size a n := by
  refine ⟨fun hall => ?_, fun h i hi => h.mem hi⟩
  by_contra hno
  obtain ⟨i, hi, hout, -⟩ := exists_outside hno
  exact hout (hall i hi)

/-- **A string is read inside** when it has its zero byte there. -/
theorem strlen_inside_iff {mem : UInt64 → UInt8} : (strlen_told mem (2 ^ 64) a).All (Inside start size) ↔
    ∃ k, RangeInside start size a (k + 1) ∧ mem (a + UInt64.ofNat k) = 0 := by
  rw [strlen_told_all]
  constructor
  · intro hall
    by_contra hno
    -- the bytes from `a` to the end of the module are not zero, and the one behind is read
    have hlong : ¬RangeInside start size a (2 ^ 64) := by
      have hlt := size.toNat_lt
      rintro (h | h)
      · cases h
      · omega
    obtain ⟨i, hi, hout, hle⟩ := exists_outside hlong
    refine hout (hall i hi fun j hj h0 => hno ⟨j, .inr ?_, h0⟩)
    omega
  · rintro ⟨k, hk, h0⟩ i - hne
    refine hk.mem (Nat.lt_succ_of_le (Nat.not_lt.1 fun hlt => hne k hlt h0))

end Inside

/-- **A header lies in the module**: the zero byte of its name, and its size. -/
structure HeaderInside (m : Mm) (size a : UInt64) : Prop where
  name : ∃ k, RangeInside m.initrd size a (k + 1) ∧ m.module (a + UInt64.ofNat k) = 0
  digits : RangeInside m.initrd size (a + TAR_SIZE_OFFSET) 11

/-- How many bytes the copy to `NULL` reads: those up to the first one that cannot be stored. -/
def low_bytes (data : UInt64) : ℕ → Vm → (UInt64 → UInt8) → UInt64 → ℕ
  | 0, _, _, _ => 0
  | n + 1, s, mem, i =>
    match write8 s i (mem (data + i)) with
    | .error _ => 1
    | .ok s' => low_bytes data n s' (fun a => if same_byte s i a then mem (data + i) else mem a) (i + 1) + 1

/-- How many bytes of the entry at `a` are copied for a file of this size: none when the heap does not answer,
and when it has no room those of the copy to `NULL`. -/
def copied_bytes (m : Mm) (a sz : UInt64) : ℕ :=
  match kmalloc m (sz + 1) with
  | .error _ => 0
  | .ok (buf, m) => if buf = 0 then low_bytes (a + 0x200) sz.toNat m.vm m.module 0 else sz.toNat

/-- **The archive lies in the module**, as far as the search for a path gets: its first byte; when there is a
first name, the headers from there on, up to one without a name or with the path's; and the data of the
latter. -/
structure ArchiveInside (m : Mm) (size : UInt64) (path : List UInt8) : Prop where
  first : Inside m.initrd size (m.initrd + 0x200)
  headers : m.module (m.initrd + 0x200) ≠ 0 → ∀ a,
    Visits (next_header m.module) (GoesOn m.module path) (m.initrd + 0x200) a → HeaderInside m size a
  data : m.module (m.initrd + 0x200) ≠ 0 → ∀ a,
    Visits (next_header m.module) (GoesOn m.module path) (m.initrd + 0x200) a → strcmp_eq m.module a path = .ok true →
      RangeInside m.initrd size (a + 0x200) (copied_bytes m a (getsize m.module (a + TAR_SIZE_OFFSET)))

section Archive

variable {m : Mm} {size a header address : UInt64} {path : List UInt8} {fuel : ℕ}

/-- **What the copy to `NULL` reads.** -/
theorem copy_low_told_all {P : UInt64 → Prop} {data i : UInt64} {n : ℕ} {s : Vm} {mem : UInt64 → UInt8} :
    (copy_low_told data n s mem i).All P ↔ ∀ j < low_bytes data n s mem i, P (data + i + UInt64.ofNat j) := by
  induction n generalizing s mem i with
  | zero => exact iff_of_true (Traced.all_lift _) fun j hj => absurd hj (Nat.not_lt_zero j)
  | succ n ih =>
    have hself : data + i + UInt64.ofNat 0 = data + i := UInt64.add_zero _
    rw [copy_low_told, Traced.all_tell_bind, Traced.all_lift_bind, low_bytes]
    rcases write8_cases s i (mem (data + i)) with h | ⟨s', h⟩
    · rw [h]
      constructor
      · rintro ⟨h0, -⟩ j hj
        obtain rfl : j = 0 := Nat.lt_one_iff.1 hj
        rwa [hself]
      · exact fun hall => ⟨hself ▸ hall 0 Nat.one_pos, fun _ hs => by cases hs⟩
    · rw [h]
      have hnext : ∀ j, data + (i + 1) + UInt64.ofNat j = data + i + UInt64.ofNat (j + 1) := fun j => by
        rw [← UInt64.add_assoc, add_one_ofNat]
      constructor
      · rintro ⟨h0, hrest⟩ j hj
        cases j with
        | zero => rwa [hself]
        | succ j =>
          rw [← hnext]
          exact ih.1 (hrest s' rfl) j (Nat.lt_of_succ_lt_succ hj)
      · refine fun hall => ⟨hself ▸ hall 0 (Nat.succ_pos _), fun t ht => ?_⟩
        obtain rfl := Except.ok.inj ht
        refine ih.2 fun j hj => ?_
        rw [hnext]
        exact hall (j + 1) (Nat.succ_lt_succ hj)

theorem get_buf_inside_iff {sz : UInt64} : (get_buf_told m a sz).All (Inside m.initrd size) ↔
    RangeInside m.initrd size (a + 0x200) (copied_bytes m a sz) := by
  rw [get_buf_told, Traced.all_lift_bind, copied_bytes]
  cases kmalloc m (sz + 1) with
  | error e => exact iff_of_true (fun _ h => by cases h) (.inl rfl)
  | ok r =>
    obtain ⟨buf, m₁⟩ := r
    have hone : ∀ f : ℕ × Mm → Prop, (∀ r, (Except.ok (buf, m₁) : Kern (ℕ × Mm)) = .ok r → f r) ↔ f (buf, m₁) :=
      fun f => ⟨fun h => h _ rfl, fun h r hr => Except.ok.inj hr ▸ h⟩
    rw [hone]
    dsimp only
    split
    · rw [copy_low_told_all, ← rangeInside_iff, UInt64.add_zero]
    · rw [Traced.all_bind_ok read_all_result, and_iff_left (Traced.all_pure _), read_all_all, rangeInside_iff]

/-- A comparison that does not return has read all of memory. -/
theorem strcmp_outside {mem : UInt64 → UInt8} {e : Halt} (h : strcmp_eq mem a path = .error e) :
    ∀ k, mem (a + UInt64.ofNat k) ≠ 0 := by
  intro k h0
  obtain ⟨b, hb⟩ : ∃ b, strcmp_eq mem a path = .ok b := strcmp_eq_returns h0 a
  rw [hb] at h
  cases h

/-- What is read of a header. -/
theorem header_inside_iff (hp : path.length ≤ 99) :
    ((getsize_told m.module (a + TAR_SIZE_OFFSET)).All (Inside m.initrd size) ∧
      (strcmp_told m.module a path).All (Inside m.initrd size)) ↔ HeaderInside m size a := by
  rw [getsize_told_all, rangeInside_iff, strcmp_told_all hp, strlen_inside_iff]
  exact ⟨fun ⟨h₁, h₂⟩ => ⟨h₂, h₁⟩, fun ⟨h₁, h₂⟩ => ⟨h₂, h₁⟩⟩

/-- One turn of the loop. -/
theorem scan_inside_succ (hp : path.length ≤ 99) :
    (initrd_scan_told m.module path (fuel + 1) header address).All (Inside m.initrd size) ↔
      Inside m.initrd size header ∧ (m.module header ≠ 0 → HeaderInside m size address ∧
        (strcmp_eq m.module address path = .ok false →
          (initrd_scan_told m.module path fuel address (next_header m.module address)).All (Inside m.initrd size))) := by
  rw [initrd_scan_told, Traced.all_tell_bind]
  refine and_congr_right fun _ => ?_
  split
  next h0 => exact iff_of_true (Traced.all_pure _) fun h => absurd h0 h
  next h0 =>
    rw [imp_iff_right h0, Traced.all_bind_ok getsize_told_result, Traced.all_bind, ← and_assoc, header_inside_iff hp,
      strcmp_told_result]
    refine and_congr_right fun _ => ⟨fun h hf => h false hf, fun h same hs => ?_⟩
    cases same with
    | true => exact Traced.all_pure _
    | false => exact h hs

/-- Headers that lie in the module are all that the loop reads. -/
theorem scan_inside (hp : path.length ≤ 99) (hfirst : Inside m.initrd size header)
    (h : m.module header ≠ 0 → ∀ a, Visits (next_header m.module) (GoesOn m.module path) address a →
      HeaderInside m size a) :
    (initrd_scan_told m.module path fuel header address).All (Inside m.initrd size) := by
  induction fuel generalizing header address with
  | zero => exact Traced.all_lift _
  | succ fuel ih =>
    refine (scan_inside_succ hp).2 ⟨hfirst, fun hne => ?_⟩
    have hhere := h hne address (.refl _ _ _)
    refine ⟨hhere, fun hcmp => ih ?_ fun hne' a ha => ?_⟩
    · obtain ⟨k, hk, -⟩ := hhere.name
      exact UInt64.add_zero address ▸ hk.mem (Nat.succ_pos k)
    · exact h hne a (ha.head ⟨hne', by rw [hcmp]; simp⟩)

/-- It gets to every one of them. -/
theorem header_inside_of_scan {n : ℕ} (hp : path.length ≤ 99)
    (hall : (initrd_scan_told m.module path fuel header address).All (Inside m.initrd size))
    (hne : m.module header ≠ 0) (hn : n < fuel)
    (hP : ∀ i < n, GoesOn m.module path ((next_header m.module)^[i] address)) :
    HeaderInside m size ((next_header m.module)^[n] address) := by
  induction n generalizing fuel header address with
  | zero =>
    obtain ⟨fuel, rfl⟩ : ∃ k, fuel = k + 1 := ⟨fuel - 1, by omega⟩
    exact (((scan_inside_succ hp).1 hall).2 hne).1
  | succ n ih =>
    obtain ⟨fuel, rfl⟩ : ∃ k, fuel = k + 1 := ⟨fuel - 1, by omega⟩
    obtain ⟨hhere, hrest⟩ := ((scan_inside_succ hp).1 hall).2 hne
    obtain ⟨hname, hcmp⟩ := hP 0 (Nat.succ_pos n)
    rw [Function.iterate_zero_apply] at hname hcmp
    cases hs : strcmp_eq m.module address path with
    | error e =>
      obtain ⟨k, -, h0⟩ := hhere.name
      exact absurd h0 (strcmp_outside hs k)
    | ok same =>
      cases same with
      | true => exact absurd hs hcmp
      | false =>
        rw [Function.iterate_succ_apply]
        refine ih (hrest hs) hname (by omega) fun i hi => ?_
        rw [← Function.iterate_succ_apply]
        exact hP (i + 1) (by omega)

theorem first_inside_of_scan (hf : 0 < fuel) (hp : path.length ≤ 99)
    (hall : (initrd_scan_told m.module path fuel header address).All (Inside m.initrd size)) :
    Inside m.initrd size header := by
  obtain ⟨fuel, rfl⟩ : ∃ k, fuel = k + 1 := ⟨fuel - 1, by omega⟩
  exact ((scan_inside_succ hp).1 hall).1

theorem find_inside_iff (hp : path.length ≤ 99) : (initrd_find_told m path).All (Inside m.initrd size) ↔
    Inside m.initrd size (m.initrd + 0x200) ∧ (m.module (m.initrd + 0x200) ≠ 0 → ∀ a,
      Visits (next_header m.module) (GoesOn m.module path) (m.initrd + 0x200) a → HeaderInside m size a) := by
  rw [initrd_find_told, if_neg (Nat.not_lt.2 hp)]
  constructor
  · intro hall
    refine ⟨first_inside_of_scan (Nat.pow_pos (by decide)) hp hall, fun hne a ha => ?_⟩
    obtain ⟨n, hn, rfl, hP⟩ := ha.within (N := 2 ^ 64) UInt64.toNat (fun _ _ => UInt64.toNat_inj.1) UInt64.toNat_lt
    exact header_inside_of_scan hp hall hne (Nat.lt_of_le_of_lt hn (by decide)) hP
  · rintro ⟨hfirst, h⟩
    exact scan_inside hp hfirst h

/-- The entry that is found is the one that the search gets to with the path's name. -/
theorem scan_found {mem : UInt64 → UInt8} {sz : UInt64} (h : initrd_scan mem path fuel header address = .ok (some (a, sz))) :
    mem header ≠ 0 ∧ Visits (next_header mem) (GoesOn mem path) address a ∧ strcmp_eq mem a path = .ok true ∧
      sz = getsize mem (a + TAR_SIZE_OFFSET) := by
  induction fuel generalizing header address with
  | zero => cases h
  | succ fuel ih =>
    rw [initrd_scan_succ] at h
    split at h
    next => cases h
    next hne =>
      obtain ⟨same, hs, h⟩ := bind_ok.1 h
      cases same with
      | true =>
        obtain ⟨rfl, rfl⟩ := Prod.mk.inj (Option.some.inj (Except.ok.inj h))
        exact ⟨hne, .refl _ _ _, hs, rfl⟩
      | false =>
        obtain ⟨hne', ha, hcmp, hsz⟩ := ih h
        exact ⟨hne, ha.head ⟨hne', by rw [hs]; simp⟩, hcmp, hsz⟩

theorem scan_of_visited {mem : UInt64 → UInt8} {n : ℕ} (hne : mem header ≠ 0) (hn : n < fuel)
    (hP : ∀ i < n, GoesOn mem path ((next_header mem)^[i] address))
    (hcmp : strcmp_eq mem ((next_header mem)^[n] address) path = .ok true) :
    initrd_scan mem path fuel header address = .ok (some ((next_header mem)^[n] address,
      getsize mem ((next_header mem)^[n] address + TAR_SIZE_OFFSET))) := by
  obtain ⟨z, hz⟩ : ∃ z, mem z = 0 := zero_of_stop fun hgo => hgo.2 hcmp
  induction n generalizing fuel header address with
  | zero =>
    obtain ⟨fuel, rfl⟩ : ∃ k, fuel = k + 1 := ⟨fuel - 1, by omega⟩
    rw [initrd_scan_succ, if_neg hne, show strcmp_eq mem address path = .ok true from hcmp]
    rfl
  | succ n ih =>
    obtain ⟨fuel, rfl⟩ : ∃ k, fuel = k + 1 := ⟨fuel - 1, by omega⟩
    obtain ⟨hname, hother⟩ := hP 0 (Nat.succ_pos n)
    obtain ⟨same, hs⟩ := strcmp_eq_returns hz address
    cases same with
    | true => exact absurd hs hother
    | false =>
      rw [initrd_scan_succ, if_neg hne, hs, Function.iterate_succ_apply]
      rw [Function.iterate_succ_apply] at hcmp
      refine ih hname (by omega) (fun i hi => ?_) hcmp
      rw [← Function.iterate_succ_apply]
      exact hP (i + 1) (by omega)

theorem find_found_iff {sz : UInt64} (hp : path.length ≤ 99) : initrd_find m path = .ok (some (a, sz)) ↔
    m.module (m.initrd + 0x200) ≠ 0 ∧
      Visits (next_header m.module) (GoesOn m.module path) (m.initrd + 0x200) a ∧
        strcmp_eq m.module a path = .ok true ∧ sz = getsize m.module (a + TAR_SIZE_OFFSET) := by
  rw [initrd_find, if_neg (Nat.not_lt.2 hp)]
  refine ⟨scan_found, ?_⟩
  rintro ⟨hne, ha, hcmp, rfl⟩
  obtain ⟨n, hn, rfl, hP⟩ := ha.within (N := 2 ^ 64) UInt64.toNat (fun _ _ => UInt64.toNat_inj.1) UInt64.toNat_lt
  exact scan_of_visited hne (Nat.lt_of_le_of_lt hn (by decide)) hP hcmp

end Archive

/-- **For every content of the module**, every size of it and every path: `initrd_open` reads in the module only
if and only if the path is longer than 99 characters, or the archive lies in the module. -/
theorem reads_inside_iff (m : Mm) (size : UInt64) (path : List UInt8) :
    (∀ a ∈ (initrd_open_told m path).deeds, Inside m.initrd size a) ↔
      99 < path.length ∨ ArchiveInside m size path := by
  show (initrd_open_told m path).All (Inside m.initrd size) ↔ _
  by_cases hp : path.length ≤ 99
  · rw [or_iff_right (Nat.not_lt.2 hp), initrd_open_told, Traced.all_bind, find_inside_iff hp,
      initrd_find_told_result]
    constructor
    · rintro ⟨⟨hfirst, hheaders⟩, hdata⟩
      refine ⟨hfirst, hheaders, fun hne a ha hcmp => ?_⟩
      exact get_buf_inside_iff.1 (hdata _ ((find_found_iff hp).2 ⟨hne, ha, hcmp, rfl⟩))
    · rintro ⟨hfirst, hheaders, hdata⟩
      refine ⟨⟨hfirst, hheaders⟩, fun o ho => ?_⟩
      cases o with
      | none => exact Traced.all_pure _
      | some e =>
        obtain ⟨a, sz⟩ := e
        obtain ⟨hne, ha, hcmp, rfl⟩ := (find_found_iff hp).1 ho
        exact get_buf_inside_iff.2 (hdata hne a ha hcmp)
  · have hlt := Nat.not_le.1 hp
    rw [initrd_open_told, initrd_find_told, if_pos hlt]
    exact iff_of_true (Traced.all_pure _) (.inl hlt)

/-- A module that ends behind the header of its directory: the next byte is read. -/
theorem not_reads_inside : ¬∀ (m : Mm) (size : UInt64) (path : List UInt8),
    ∀ a ∈ (initrd_open_told m path).deeds, Inside m.initrd size a := by
  intro h
  have hfind : (initrd_find_told bareMm [97]).All (Inside bareMm.initrd 0x200) :=
    fun a ha => h bareMm 0x200 [97] a (Traced.mem_deeds_bind.2 (.inl ha))
  exact absurd ((find_inside_iff (by decide)).1 hfind).1 (by decide)

end Iridium
