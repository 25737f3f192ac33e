import Iridium.Common.Elf
import Iridium.Mm.Mapping

/-!
# A page mapped and loaded

The loader and `kmalloc_user` map the pages of a new process with `vmm_map_page`, for ring 3,
and the loader writes the bytes of the program there. Of the tables, such a mapping changes one word, the
leaf of the page: one that is present keeps its frame and gets all three rights, one that is absent
gets the frame `pmm_alloc` finds. The bytes go to that frame.

Another space may have the leaf in its own walks, or the frame under one of its pages. What keeps
a page of it as it was is `Spares` (`loaded_unchanged_iff`).
-/

namespace Iridium

open Lib.Paging

/-! ### Bytes of a frame -/

/-- Bytes put into a frame, from byte `o` of it on. -/
def setBytes (f : ℕ) : Ram → ℕ → List UInt8 → Ram
  | m, _, [] => m
  | m, o, b :: bytes => setBytes f (m.set f (o / 8) (setByte (m f (o / 8)) (o % 8) b)) (o + 1) bytes

theorem setBytes_cons (f : ℕ) (m : Ram) (o : ℕ) (b : UInt8) (bytes : List UInt8) :
    setBytes f m o (b :: bytes) = setBytes f (setBytes f m o [b]) (o + 1) bytes := rfl

theorem setBytes_of_ne {f g : ℕ} (h : g ≠ f) (m : Ram) (o : ℕ) (bytes : List UInt8) :
    setBytes f m o bytes g = m g := by
  induction bytes generalizing m o with
  | nil => rfl
  | cons b bytes ih =>
    rw [setBytes, ih]
    funext i
    exact m.set_of_ne _ fun he => h (Prod.mk.inj he).1

/-- The low bit of a word is that of its first byte. -/
theorem present_setByte (w : UInt64) (b : UInt8) : present (setByte w 0 b) = present b.toUInt64 := by
  have hs : setByte w 0 b = (w &&& ~~~0xff) ||| b.toUInt64 := by simp [setByte]
  have hm : ~~~0xff &&& (1 : UInt64) = 0 := by decide
  rw [present, hs, replaced_and, hm, UInt64.and_zero, UInt64.zero_or, present]

/-- **A page loaded**: `v` is mapped in the space of `cr3` for ring 3, and bytes are written to the
page, from byte `o` of it on. The processor walks the tables for the first byte, after the
`invlpg` of the mapping, and keeps what it found. -/
def load_page (s : Vm) (cr3 v : UInt64) (o : ℕ) (bytes : List UInt8) : Kern Vm := do
  let s ← vmm_map_page s cr3 v (PAGE_PRESENT ||| PAGE_WRITABLE ||| PAGE_USER)
  match translate s.ram cr3 v with
  | none => .error .fault
  | some h => .ok { s with ram := setBytes h.frame s.ram o bytes }

/-- **The copying loop of the loader** from a buffer that it does not write to: `n` bytes from the one at
`src` to the virtual address `dst`. -/
def copy_from (mem : ℕ → UInt8) : ℕ → Vm → UInt64 → ℕ → Kern Vm
  | 0, s, _, _ => .ok s
  | n + 1, s, dst, src => do
    let s ← write8 s dst (mem src)
    copy_from mem n s (dst + 1) (src + 1)

/-- That loop walks the tables for every byte. It is the same when the walk does not go through the frame
that is written. -/
theorem copy_from_page {mem : ℕ → UInt8} {n : ℕ} {s : Vm} {a : UInt64} {src : ℕ} {h : Hit}
    (ht : translate s.ram s.cr3 a = some h) (hf : ∀ c ∈ words s.ram s.cr3 a, c.1 ≠ h.frame)
    (hn : a.toNat % 4096 + n ≤ 4096) :
    copy_from mem n s a src =
      .ok { s with ram := setBytes h.frame s.ram (a.toNat % 4096) ((List.range' src n).map mem) } := by
  induction n generalizing s a src with
  | zero => rfl
  | succ n ih =>
    have hmod : a.toNat % 4096 % 8 = a.toNat % 8 := Nat.mod_mod_of_dvd _ (by decide)
    have hwrite : write8 s a (mem src) =
        .ok { s with ram := setBytes h.frame s.ram (a.toNat % 4096) [mem src] } := by
      simp only [write8, ht, setBytes, hmod, wordNo]
    have hoff : ∀ c ∈ words s.ram s.cr3 a,
        setBytes h.frame s.ram (a.toNat % 4096) [mem src] c.1 c.2 = s.ram c.1 c.2 := fun c hc => by
      rw [setBytes_of_ne (hf c hc)]
    rw [copy_from, List.range'_succ, List.map_cons, setBytes_cons, hwrite]
    show copy_from mem n _ (a + 1) (src + 1) = _
    cases n with
    | zero => rfl
    | succ n =>
      have ha : (a + 1).toNat = a.toNat + 1 := by
        rw [UInt64.toNat_add]
        have := a.toNat_lt
        simp
        omega
      have hpage : frameNo (a + 1) = frameNo a := by
        rw [frameNo, frameNo, ha]
        omega
      have ho : (a + 1).toNat % 4096 = a.toNat % 4096 + 1 := by
        rw [ha]
        omega
      obtain ⟨hwalk, hwords⟩ := walk_page (m := s.ram) (t := frameNo s.cr3) hpage (show 4 ≤ 5 by decide)
      have hnext : translate (setBytes h.frame s.ram (a.toNat % 4096) [mem src]) s.cr3 (a + 1) = some h :=
        (walk_congr (by rw [hwords]; exact hoff)).trans (hwalk.trans ht)
      have hsame : words (setBytes h.frame s.ram (a.toNat % 4096) [mem src]) s.cr3 (a + 1) =
          words s.ram s.cr3 a :=
        (footprint_congr (by rw [hwords]; exact hoff)).trans hwords
      rw [← ho]
      exact ih (s := { s with ram := setBytes h.frame s.ram (a.toNat % 4096) [mem src] }) hnext
        (by rw [hsame]; exact hf) (by rw [ho]; omega)

/-! ### The leaf -/

/-- What becomes of a leaf that is mapped for ring 3. -/
def mapped_leaf (p : Pmm) (e : UInt64) : UInt64 :=
  if present e then (e &&& ~~~7) ||| 7 else (p.next_alloc &&& PAGE_ADDR_MASK) ||| 7

theorem mapped_leaf_eq_new (p : Pmm) (e : UInt64) : mapped_leaf p e = new_leaf p e 7 := rfl

/-- It allows everything. -/
theorem mapped_leaf_rights (p : Pmm) (e : UInt64) : present (mapped_leaf p e) = true ∧
    writable (mapped_leaf p e) = true ∧ user (mapped_leaf p e) = true := by
  have hall : Allows 7 (mapped_leaf p e) := by
    rw [mapped_leaf_eq_new]
    exact allows_new_leaf (by decide)
  exact ⟨hall.1, hall.2.1 (by decide), hall.2.2 (by decide)⟩

/-- A leaf that is present keeps its frame. -/
theorem sameWay_mapped_leaf {p : Pmm} {e : UInt64} (he : present e = true) :
    SameWay e (mapped_leaf p e) := by
  rw [mapped_leaf_eq_new]
  exact sameWay_new_leaf (by decide) (by decide) he

/-- A leaf that is present and allows ring 3 has all three rights when it allows writing. -/
theorem full_of_writable {e : UInt64} (hp : present e = true) (hw : writable e = true) (hu : user e = true) :
    e &&& 7 = 7 := by
  have hbits : ∀ n < 8, present (UInt64.ofNat n) = true → writable (UInt64.ofNat n) = true →
      user (UInt64.ofNat n) = true → UInt64.ofNat n = 7 := by decide
  have hlow : ∀ mask : UInt64, 7 &&& mask = mask → e &&& 7 &&& mask = e &&& mask := by
    intro mask hm
    rw [UInt64.and_assoc, hm]
  have hlt : (e &&& 7).toNat < 8 := by
    rw [UInt64.toNat_and]
    exact Nat.lt_of_le_of_lt Nat.and_le_right (by decide)
  rw [← UInt64.ofNat_toNat (x := e &&& 7)]
  refine hbits _ hlt ?_ ?_ ?_
  · rw [UInt64.ofNat_toNat, present, hlow 1 (by decide)]
    exact hp
  · rw [UInt64.ofNat_toNat, writable, hlow 2 (by decide)]
    exact hw
  · rw [UInt64.ofNat_toNat, user, hlow 4 (by decide)]
    exact hu

/-- **The leaf stays as it is** when it has all three rights, and only then. -/
theorem mapped_leaf_eq {p : Pmm} {e : UInt64} : mapped_leaf p e = e ↔ e &&& 7 = 7 := by
  constructor
  · intro h
    rw [← h, mapped_leaf_eq_new, new_leaf_low rfl]
    rfl
  · intro h
    have hp : present e = true := by
      have h1 : e &&& 1 = 1 := by
        rw [show (1 : UInt64) = 7 &&& 1 from rfl, ← UInt64.and_assoc, h]
      rw [present, h1]
      rfl
    rw [mapped_leaf, if_pos hp]
    nth_rewrite 2 [← h]
    apply UInt64.toBitVec_inj.1
    show (e.toBitVec &&& ~~~7) ||| (e.toBitVec &&& 7) = e.toBitVec
    rw [← BitVec.and_or_distrib_left, BitVec.not_or_self, BitVec.and_allOnes]

/-! ### What a mapping for ring 3 does -/

/-- The mapping returns: its mutex is free, the tables are there, and so is the leaf, unless the
mutex of `pmm_alloc` is free. -/
structure Mappable (s : Vm) (cr3 v : UInt64) : Prop where
  lock : s.lock = false
  tables : TablesPresent s.ram cr3 v
  leaf : present (leaf s.ram cr3 v) = true ∨ s.pmm.lock = false

/-- Physical memory after the mapping. -/
def mapped (s : Vm) (cr3 v : UInt64) : Ram :=
  s.ram.set (page_tbl_of s.ram cr3 v) (pt_idx v) (mapped_leaf s.pmm (leaf s.ram cr3 v))

/-- The frame that the page has then: the one that the space has for it, if there is one, and
otherwise the one that `pmm_alloc` answers with. -/
def landing (s : Vm) (cr3 v : UInt64) : ℕ :=
  ((translate s.ram cr3 v).map Hit.frame).getD (frameNo (s.pmm.next_alloc &&& PAGE_ADDR_MASK))

section Mapping

variable {s s' : Vm} {cr3 v : UInt64}

theorem map_user_ok (h : vmm_map_page s cr3 v (PAGE_PRESENT ||| PAGE_WRITABLE ||| PAGE_USER) = .ok s') :
    Mappable s cr3 v ∧ s'.ram = mapped s cr3 v := by
  obtain ⟨hl, ht, hs⟩ := vmm_map_page_ok.1 h
  refine ⟨⟨hl, ht, set_leaf_returns.1 ⟨s', hs⟩⟩, ?_⟩
  rw [vmm_map_page_leaf h, mapped, mapped_leaf_eq_new]
  rfl

theorem Mappable.returns (h : Mappable s cr3 v) :
    ∃ s', vmm_map_page s cr3 v (PAGE_PRESENT ||| PAGE_WRITABLE ||| PAGE_USER) = .ok s' := by
  obtain ⟨s', hs'⟩ := set_leaf_returns.2 h.leaf
  exact ⟨s', vmm_map_page_ok.2 ⟨h.lock, h.tables, hs'⟩⟩

/-- A leaf that is absent is none of the words above it, nor of a walk that succeeds. -/
theorem mapped_of_present (hn : present (leaf s.ram cr3 v) = false) {f i : ℕ}
    (hp : present (s.ram f i) = true) : mapped s cr3 v f i = s.ram f i :=
  set_of_present hn hp

/-- **The page has its frame** after the mapping. -/
theorem translate_mapped (ht : TablesPresent s.ram cr3 v) :
    ∃ h, translate (mapped s cr3 v) cr3 v = some h ∧ h.frame = landing s cr3 v := by
  have h := frame_new_leaf (p := s.pmm) (show PageBits 7 by decide) (by decide) ht
  exact Option.map_eq_some_iff.1 h

/-- **A page that is loaded**, taken apart: the bytes go to its frame, behind the mapping. -/
theorem load_page_ok {o : ℕ} {bytes : List UInt8} (h : load_page s cr3 v o bytes = .ok s') :
    Mappable s cr3 v ∧ s'.ram = setBytes (landing s cr3 v) (mapped s cr3 v) o bytes := by
  obtain ⟨t, ht, h⟩ := bind_ok.1 h
  obtain ⟨hm, hram⟩ := map_user_ok ht
  obtain ⟨hit, hhit, hf⟩ := translate_mapped hm.tables
  refine ⟨hm, ?_⟩
  rw [hram, hhit] at h
  obtain rfl := Except.ok.inj h
  rw [← hf, ← hram]

theorem Mappable.loads (h : Mappable s cr3 v) (o : ℕ) (bytes : List UInt8) :
    ∃ s', load_page s cr3 v o bytes = .ok s' := by
  obtain ⟨t, ht⟩ := h.returns
  obtain ⟨hm, hram⟩ := map_user_ok ht
  obtain ⟨hit, hhit, hf⟩ := translate_mapped hm.tables
  refine ⟨{ t with ram := setBytes hit.frame t.ram o bytes }, bind_ok.2 ⟨t, ht, ?_⟩⟩
  rw [hram, hhit]

end Mapping

/-! ### The pages of another space -/

/-- A page of the space `other`: ring 3 gets from address `w` to a frame. -/
def UserPage (m : Ram) (other w : UInt64) (h : Hit) : Prop :=
  translate m other w = some h ∧ h.user = true

/-- The page has its frame, its rights and its contents still. -/
def Unchanged (m m' : Ram) (other w : UInt64) (h : Hit) : Prop :=
  translate m' other w = some h ∧ m' h.frame = m h.frame

/-- The leaf of `v` has all its rights already; or it lies outside the page and gives the page no
right that another word does not deny. -/
def LeafSpares (s : Vm) (cr3 v other w : UInt64) (h : Hit) : Prop :=
  leaf s.ram cr3 v &&& 7 = 7 ∨
    (page_tbl_of s.ram cr3 v ≠ h.frame ∧
      ((page_tbl_of s.ram cr3 v, pt_idx v) ∈ words s.ram other w →
        ∃ c ∈ words s.ram other w, c ≠ (page_tbl_of s.ram cr3 v, pt_idx v) ∧
          writable (s.ram c.1 c.2) = false))

/-- Bytes written to the frame `f` go neither to the page nor to a table on the way to it. -/
def BytesSpare (m : Ram) (f : ℕ) (other w : UInt64) (h : Hit) : Prop :=
  f ≠ h.frame ∧ ∀ c ∈ words m other w, c.1 ≠ f

section Other

variable {m : Ram} {f : ℕ} {s : Vm} {cr3 v other w : UInt64} {h : Hit}

/-- **Bytes of a program spare a page**, whatever they are, when their frame is neither that of
the page nor that of a table on the way to it, and only then. -/
theorem bytes_unchanged_iff (hw : UserPage m other w h) :
    (∀ o bytes, o + bytes.length ≤ 4096 → Unchanged m (setBytes f m o bytes) other w h) ↔
      BytesSpare m f other w h := by
  constructor
  · intro hall
    constructor
    · rintro rfl
      -- the first byte of the page, with the low bit clear and with the low bit set
      have hlow : ∀ b : UInt8, present b.toUInt64 = present (m h.frame 0) := by
        intro b
        have hkept : setBytes h.frame m 0 [b] h.frame 0 = m h.frame 0 := by
          rw [(hall 0 [b] (show 1 ≤ 4096 by decide)).2]
        have hbyte : setBytes h.frame m 0 [b] h.frame 0 = setByte (m h.frame 0) 0 b := Ram.set_same _ _ _ _
        rw [← hkept, hbyte, present_setByte]
      have hbits := (hlow 0).trans (hlow 1).symm
      cases hbits
    · rintro ⟨g, i⟩ hc rfl
      -- the first byte of the word, so that the word is absent
      have hi := lt_of_mem_footprint hc
      have hbyte : setBytes g m (8 * i) [0] = m.set g i (setByte (m g i) 0 0) := by
        simp [setBytes]
      have hsome := (hall (8 * i) [0] (by simp; omega)).1
      rw [hbyte] at hsome
      have habsent : present (setByte (m g i) 0 0) = false := by
        rw [present_setByte]
        rfl
      have hnone : translate (m.set g i (setByte (m g i) 0 0)) other w = none := walk_set_absent hc habsent
      rw [hnone] at hsome
      cases hsome
  · rintro ⟨hf, ht⟩ o bytes -
    refine ⟨(walk_congr fun c hc => ?_).trans hw.1, setBytes_of_ne hf.symm m o bytes⟩
    rw [setBytes_of_ne (ht c hc)]

/-- **A mapping keeps the way** to a page of another space: its frame, the words of the walk, and
that ring 3 gets there. -/
theorem UserPage.keeps_way (hw : UserPage s.ram other w h) (cr3 v : UInt64) :
    words (mapped s cr3 v) other w = words s.ram other w ∧
      ∃ h', UserPage (mapped s cr3 v) other w h' ∧ h'.frame = h.frame := by
  obtain ⟨ht, hu⟩ := hw
  cases hn : present (leaf s.ram cr3 v) with
  | false =>
    have hm : ∀ c ∈ words s.ram other w, mapped s cr3 v c.1 c.2 = s.ram c.1 c.2 :=
      fun c hc => mapped_of_present hn (present_of_mem ht hc)
    exact ⟨footprint_congr hm, h, ⟨(walk_congr hm).trans ht, hu⟩, rfl⟩
  | true =>
    have hway := sameWay_set (m := s.ram) (f := page_tbl_of s.ram cr3 v) (i := pt_idx v)
      (sameWay_mapped_leaf (p := s.pmm) hn)
    have hwords : words (mapped s cr3 v) other w = words s.ram other w := footprint_sameWay hway
    have hframe : (translate (mapped s cr3 v) other w).map Hit.frame = some h.frame := by
      rw [← Option.map_some, ← ht]
      exact walk_sameWay hway
    obtain ⟨h', ht', hf⟩ := Option.map_eq_some_iff.1 hframe
    refine ⟨hwords, h', ⟨ht', ?_⟩, hf⟩
    -- a leaf that changes allows ring 3 afterwards
    rw [(walk_rights ht').2, List.all_eq_true]
    intro c hc
    by_cases hcs : c = (page_tbl_of s.ram cr3 v, pt_idx v)
    · rw [hcs, mapped, Ram.set_same]
      exact (mapped_leaf_rights _ _).2.2
    · rw [mapped, s.ram.set_of_ne _ hcs]
      rw [(walk_rights ht).2, List.all_eq_true] at hu
      refine hu c ?_
      have hc : c ∈ words (mapped s cr3 v) other w := hc
      rwa [hwords] at hc

/-- **A mapping spares a page** of another space exactly when its leaf does. -/
theorem mapped_unchanged_iff (hw : UserPage s.ram other w h) :
    Unchanged s.ram (mapped s cr3 v) other w h ↔ LeafSpares s cr3 v other w h := by
  obtain ⟨hwords, h', hw', hf⟩ := hw.keeps_way cr3 v
  obtain ⟨ht, hu⟩ := hw
  by_cases hfull : leaf s.ram cr3 v &&& 7 = 7
  · have hsame : mapped s cr3 v = s.ram := by
      funext g i
      by_cases hc : (g, i) = (page_tbl_of s.ram cr3 v, pt_idx v)
      · obtain ⟨rfl, rfl⟩ := Prod.mk.inj hc
        rw [mapped, Ram.set_same, mapped_leaf_eq.2 hfull, leaf]
      · rw [mapped, s.ram.set_of_ne _ hc]
    rw [hsame]
    exact iff_of_true ⟨ht, rfl⟩ (.inl hfull)
  · have hchanged : mapped_leaf s.pmm (leaf s.ram cr3 v) ≠ leaf s.ram cr3 v :=
      fun he => hfull (mapped_leaf_eq.1 he)
    constructor
    · rintro ⟨ht', hcont⟩
      refine .inr ⟨?_, fun hslot => ?_⟩
      · intro hpage
        have hi := congrFun hcont (pt_idx v)
        rw [← hpage, mapped, Ram.set_same] at hi
        exact hchanged hi
      · -- the leaf denies writing before; so another word does afterwards
        have hden : h.writable = false := by
          by_contra hwr
          rw [Bool.not_eq_false, (walk_rights ht).1, List.all_eq_true] at hwr
          rw [(walk_rights ht).2, List.all_eq_true] at hu
          exact hfull (full_of_writable (present_of_mem ht hslot) (hwr _ hslot) (hu _ hslot))
        rw [(walk_rights ht').1, List.all_eq_false] at hden
        obtain ⟨c, hc, hcw⟩ := hden
        have hne : c ≠ (page_tbl_of s.ram cr3 v, pt_idx v) := by
          rintro rfl
          rw [mapped, Ram.set_same] at hcw
          exact hcw (mapped_leaf_rights _ _).2.1
        rw [mapped, s.ram.set_of_ne _ hne] at hcw
        exact ⟨c, hwords ▸ hc, hne, eq_false_of_ne_true hcw⟩
    · rintro (hfull' | ⟨hpage, hden⟩)
      · exact absurd hfull' hfull
      · refine ⟨?_, ?_⟩
        · by_cases hslot : (page_tbl_of s.ram cr3 v, pt_idx v) ∈ words s.ram other w
          · obtain ⟨c, hc, hne, hcw⟩ := hden hslot
            have hcw' : writable (mapped s cr3 v c.1 c.2) = false := by
              rw [mapped, s.ram.set_of_ne _ hne]
              exact hcw
            have hc' : c ∈ words (mapped s cr3 v) other w := by
              rw [hwords]
              exact hc
            have hd : h.writable = false := by
              rw [(walk_rights ht).1, List.all_eq_false]
              exact ⟨c, hc, ne_true_of_eq_false hcw⟩
            have hd' : h'.writable = false := by
              rw [(walk_rights hw'.1).1, List.all_eq_false]
              exact ⟨c, hc', ne_true_of_eq_false hcw'⟩
            rw [hw'.1, Hit.ext hf (hd'.trans hd.symm) (hw'.2.trans hu.symm)]
          · refine (walk_congr fun c hc => ?_).trans ht
            exact s.ram.set_of_ne _ fun hcs => hslot (hcs ▸ hc)
        · funext i
          exact s.ram.set_of_ne _ fun hcs => hpage (Prod.mk.inj hcs).1.symm

/-- **What spares a page** of another space when page `v` is mapped and loaded. -/
def Spares (s : Vm) (cr3 v other w : UInt64) (h : Hit) : Prop :=
  LeafSpares s cr3 v other w h ∧ BytesSpare s.ram (landing s cr3 v) other w h

/-- **Mapping and loading spare a page** of another space, whatever the bytes, exactly when its
leaf and its frame do. -/
theorem loaded_unchanged_iff (hm : Mappable s cr3 v) (hw : UserPage s.ram other w h) :
    (∀ o bytes s', o + bytes.length ≤ 4096 → load_page s cr3 v o bytes = .ok s' →
      Unchanged s.ram s'.ram other w h) ↔ Spares s cr3 v other w h := by
  have hall : (∀ o bytes s', o + bytes.length ≤ 4096 → load_page s cr3 v o bytes = .ok s' →
      Unchanged s.ram s'.ram other w h) ↔ ∀ o bytes, o + bytes.length ≤ 4096 →
        Unchanged s.ram (setBytes (landing s cr3 v) (mapped s cr3 v) o bytes) other w h := by
    constructor
    · intro hl o bytes hb
      obtain ⟨s', hs'⟩ := hm.loads o bytes
      rw [← (load_page_ok hs').2]
      exact hl o bytes s' hb hs'
    · intro hl o bytes s' hb hs'
      rw [(load_page_ok hs').2]
      exact hl o bytes hb
  obtain ⟨hwords, -⟩ := hw.keeps_way cr3 v
  have hsame : BytesSpare (mapped s cr3 v) (landing s cr3 v) other w h ↔
      BytesSpare s.ram (landing s cr3 v) other w h := by
    unfold BytesSpare
    rw [hwords]
  rw [hall]
  constructor
  · intro hl
    have hmap : Unchanged s.ram (mapped s cr3 v) other w h := hl 0 [] (by decide)
    refine ⟨(mapped_unchanged_iff hw).1 hmap, hsame.1 ?_⟩
    refine (bytes_unchanged_iff ⟨hmap.1, hw.2⟩).1 fun o bytes hb => ?_
    exact ⟨(hl o bytes hb).1, (hl o bytes hb).2.trans hmap.2.symm⟩
  · rintro ⟨hleaf, hbytes⟩ o bytes hb
    have hmap := (mapped_unchanged_iff hw).2 hleaf
    have hun := (bytes_unchanged_iff ⟨hmap.1, hw.2⟩).2 (hsame.2 hbytes) o bytes hb
    exact ⟨hun.1, hun.2.trans hmap.2⟩

end Other

end Iridium
