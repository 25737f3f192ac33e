import Iridium.Mm.Loading

/-!
# An address space of a program

The loader maps pages and writes bytes in the space that the processor has loaded. Here is what the
bytes at the addresses of a program are afterwards, when the program has its frames for itself: `Own`
says that no two of its pages lie on one frame or have one leaf, that none lies on a table or on other
data of the kernel, and that the frames that `pmm_alloc` may still answer with are free for it.

A part of the loader `Puts` some bytes: it keeps the space in order, the bytes are at their addresses
afterwards, no other byte outside the tables has changed, and it does the same whatever the frames that
are no tables hold. Parts that follow one another put what the last one to do so puts (`Puts.bind`).
-/

namespace Iridium

open Lib.Paging

/-! ### Bytes -/

/-- Byte `i` of a word. -/
def getByte (w : UInt64) (i : ℕ) : UInt8 := (w >>> UInt64.ofNat (8 * i)).toUInt8

/-- A shift by whole bytes. -/
theorem shift_mod {i : ℕ} (hi : i < 8) : (UInt64.ofNat (8 * i)).toNat % 64 = 8 * i := by
  rw [UInt64.toNat_ofNat']
  omega

/-- A byte has eight bits. -/
theorem testBit_byte {b : UInt8} {n : ℕ} (hn : 8 ≤ n) : b.toNat.testBit n = false :=
  Nat.testBit_lt_two_pow (Nat.lt_of_lt_of_le b.toNat_lt (Nat.pow_le_pow_right (by omega) hn))

theorem testBit_getByte {w : UInt64} {i k : ℕ} (hi : i < 8) (hk : k < 8) :
    (getByte w i).toNat.testBit k = w.toNat.testBit (8 * i + k) := by
  rw [getByte, UInt64.toNat_toUInt8, UInt64.toNat_shiftRight, shift_mod hi, Nat.testBit_mod_two_pow,
    Nat.testBit_shiftRight]
  simp [hk]

theorem testBit_setByte {w : UInt64} {b : UInt8} {i n : ℕ} (hi : i < 8) (hn : n < 64) :
    (setByte w i b).toNat.testBit n =
      if 8 * i ≤ n ∧ n < 8 * i + 8 then b.toNat.testBit (n - 8 * i) else w.toNat.testBit n := by
  have hnot : ∀ x : UInt64, (~~~x).toNat = 2 ^ 64 - (x.toNat + 1) := by
    intro x
    rw [UInt64.toNat_not, UInt64.size]
    omega
  have hff : (0xff : UInt64).toNat = 2 ^ 8 - 1 := rfl
  rw [setByte, UInt64.toNat_or, UInt64.toNat_and, hnot, UInt64.toNat_shiftLeft, UInt64.toNat_shiftLeft,
    shift_mod hi, Nat.testBit_or, Nat.testBit_and, Nat.testBit_two_pow_sub_succ (Nat.mod_lt _ (by decide)), hff,
    Nat.testBit_mod_two_pow, Nat.testBit_mod_two_pow, Nat.testBit_shiftLeft, Nat.testBit_shiftLeft,
    Nat.testBit_two_pow_sub_one, UInt8.toNat_toUInt64]
  by_cases h₁ : 8 * i ≤ n
  · by_cases h₂ : n < 8 * i + 8
    · have h₃ : n - 8 * i < 8 := by omega
      simp [hn, h₁, h₂, h₃]
    · have h₃ : ¬n - 8 * i < 8 := by omega
      simp [hn, h₂, h₃, testBit_byte (b := b) (Nat.not_lt.1 h₃)]
  · simp [hn, h₁]

/-- **A byte of a word** after one of its bytes has been replaced. -/
theorem getByte_setByte (w : UInt64) (b : UInt8) {i j : ℕ} (hi : i < 8) (hj : j < 8) :
    getByte (setByte w i b) j = if j = i then b else getByte w j := by
  apply UInt8.toNat_inj.1
  apply Nat.eq_of_testBit_eq
  intro k
  by_cases hk : k < 8
  · rw [testBit_getByte hj hk, testBit_setByte hi (by omega)]
    split_ifs with h₁ h₂ h₂
    · rw [h₂, Nat.add_sub_cancel_left]
    · omega
    · omega
    · rw [testBit_getByte hj hk]
  · rw [testBit_byte (Nat.not_lt.1 hk), testBit_byte (Nat.not_lt.1 hk)]

/-- Byte `o` of a frame. -/
def byteOf (m : Ram) (f o : ℕ) : UInt8 := getByte (m f (o / 8)) (o % 8)

/-- One byte of a frame replaced. -/
def putByte (m : Ram) (f o : ℕ) (b : UInt8) : Ram := m.set f (o / 8) (setByte (m f (o / 8)) (o % 8) b)

theorem putByte_of_ne {m : Ram} {f g o : ℕ} (b : UInt8) (h : g ≠ f) : putByte m f o b g = m g := by
  funext i
  exact m.set_of_ne _ fun he => h (Prod.mk.inj he).1

theorem byteOf_putByte (m : Ram) (f g o p : ℕ) (b : UInt8) :
    byteOf (putByte m f o b) g p = if g = f ∧ p = o then b else byteOf m g p := by
  by_cases hg : g = f
  · subst hg
    by_cases hw : p / 8 = o / 8
    · rw [byteOf, putByte, hw, Ram.set_same,
        getByte_setByte _ _ (Nat.mod_lt _ (by decide)) (Nat.mod_lt _ (by decide)), byteOf, hw]
      by_cases hp : p = o
      · rw [if_pos (by rw [hp]), if_pos ⟨rfl, hp⟩]
      · rw [if_neg (by omega), if_neg (fun h => hp h.2)]
    · rw [byteOf, putByte, m.set_of_ne _ (fun he => hw (Prod.mk.inj he).2), if_neg (fun h => hw (by rw [h.2])),
        byteOf]
  · rw [byteOf, putByte_of_ne b hg, if_neg (fun h => hg h.1), byteOf]

/-! ### Where an address leads -/

/-- The frame under an address. -/
def frame_at (m : Ram) (cr3 a : UInt64) : Option ℕ := (translate m cr3 a).map Hit.frame

/-- **The byte at an address.** -/
def byteAt (m : Ram) (cr3 a : UInt64) : Option UInt8 :=
  (frame_at m cr3 a).map fun f => byteOf m f (a.toNat % 4096)

/-- The leaf of an address, when the tables on the way to it are there. -/
def slot (m : Ram) (cr3 a : UInt64) : Option (ℕ × ℕ) :=
  if TablesPresent m cr3 a then some (page_tbl_of m cr3 a, pt_idx a) else none

/-- A byte is written to the frame under its address. -/
theorem write8_ok {s s' : Vm} {a : UInt64} {b : UInt8} : write8 s a b = .ok s' ↔
    ∃ f, frame_at s.ram s.cr3 a = some f ∧ s' = { s with ram := putByte s.ram f (a.toNat % 4096) b } := by
  have hmod : a.toNat % 4096 % 8 = a.toNat % 8 := Nat.mod_mod_of_dvd _ (by decide)
  unfold write8 frame_at
  cases translate s.ram s.cr3 a with
  | none => simp
  | some h => simp [putByte, wordNo, hmod, eq_comm]

/-- Addresses that lead to one byte lead to one frame. -/
theorem same_byte_frame {s : Vm} {a b : UInt64} (h : same_byte s a b = true) :
    frame_at s.ram s.cr3 a = frame_at s.ram s.cr3 b := by
  unfold same_byte at h
  unfold frame_at
  split at h
  next ha hb =>
    rw [Bool.and_eq_true, beq_iff_eq] at h
    rw [ha, hb, Option.map_some, Option.map_some, h.1]
  next => cases h

/-! ### Frames enough -/

/-- **There is a frame for each of `n` allocations**: so often `pmm_alloc` finds one, and releases its mutex. -/
def Pmm.feeds : ℕ → Pmm → Bool
  | 0, _ => true
  | n + 1, p =>
    match pmm_alloc p with
    | .error _ => false
    | .ok (_, p) => !p.lock && Pmm.feeds n p

theorem Pmm.feeds_succ {n : ℕ} {p p' : Pmm} {g : UInt64} (h : p.feeds (n + 1) = true) (hg : pmm_alloc p = .ok (g, p')) :
    p'.lock = false ∧ p'.feeds n = true := by
  rw [Pmm.feeds, hg] at h
  simpa using h

theorem Pmm.feeds_mono {n k : ℕ} {p : Pmm} (h : p.feeds n = true) (hk : k ≤ n) : p.feeds k = true := by
  induction n generalizing p k with
  | zero =>
    obtain rfl := Nat.le_zero.1 hk
    rfl
  | succ n ih =>
    cases k with
    | zero => rfl
    | succ k =>
      rw [Pmm.feeds] at h ⊢
      cases hg : pmm_alloc p with
      | error e =>
        rw [hg] at h
        cases h
      | ok r =>
        rw [hg] at h
        rw [Bool.and_eq_true] at h ⊢
        exact ⟨h.1, ih h.2 (Nat.le_of_succ_le_succ hk)⟩

/-- A mapping takes one frame at the most. -/
theorem map_feeds {s s' : Vm} {cr3 v : UInt64} {flags : UInt32} {k : ℕ} (hfed : s.pmm.feeds (1 + k) = true)
    (hm : vmm_map_page s cr3 v flags = .ok s') : s'.pmm.feeds k = true := by
  rw [Nat.add_comm] at hfed
  obtain ⟨-, -, hl⟩ := vmm_map_page_ok.1 hm
  rcases set_leaf_ok.1 hl with ⟨-, rfl⟩ | ⟨-, g, pmm, hg, rfl⟩
  · exact Pmm.feeds_mono hfed (Nat.le_succ k)
  · exact (Pmm.feeds_succ hfed hg).2

/-! ### A space -/

/-- A space, and the addresses of a program in it. -/
structure Space where
  cr3 : UInt64
  /-- The frames of the tables above the page tables. -/
  upper : Set ℕ
  /-- The frames of the page tables. -/
  page_tbls : Set ℕ
  /-- The frames of the other data of the kernel, its heap among them. -/
  kernel : Set ℕ
  /-- The addresses. -/
  program : Set UInt64

namespace Space

variable {S : Space} {m m' : Ram} {s s' t : Vm} {a v : UInt64}

/-- **The tables of the space**: all walks go through them, no entry above the page tables maps a huge
page, and no two pages of the program have one leaf. -/
structure Tree (S : Space) (m : Ram) : Prop where
  top : frameNo S.cr3 ∈ S.upper
  pdpt : ∀ v, present (m (frameNo S.cr3) (pml4_idx v)) = true → pdpt_of m S.cr3 v ∈ S.upper
  pdt : ∀ v, present (m (frameNo S.cr3) (pml4_idx v)) = true →
    present (m (pdpt_of m S.cr3 v) (pdpt_idx v)) = true →
      huge (m (pdpt_of m S.cr3 v) (pdpt_idx v)) = false ∧ pdt_of m S.cr3 v ∈ S.upper
  page_tbl : ∀ v, TablesPresent m S.cr3 v →
    huge (m (pdt_of m S.cr3 v) (pd_idx v)) = false ∧ page_tbl_of m S.cr3 v ∈ S.page_tbls
  apart : ∀ f ∈ S.upper, f ∉ S.page_tbls
  leaves : ∀ a ∈ S.program, ∀ b ∈ S.program, ∀ c, slot m S.cr3 a = some c → slot m S.cr3 b = some c →
    frameNo a = frameNo b

/-- The leaf decides where an address leads. -/
theorem Tree.frame_at (h : S.Tree m) (v : UInt64) : frame_at m S.cr3 v =
    (slot m S.cr3 v).bind fun c => if present (m c.1 c.2) then some (entryFrame (m c.1 c.2)) else none := by
  have hnone : ¬TablesPresent m S.cr3 v → (slot m S.cr3 v).bind (fun c =>
      if present (m c.1 c.2) then some (entryFrame (m c.1 c.2)) else none) = none := by
    intro ht
    rw [slot, if_neg ht]
    rfl
  have hstop : ∀ {l t : ℕ}, ¬present (m t (index l v)) = true → (walk m v (l + 1) t).map Hit.frame = none := by
    intro l t hp
    rw [walk_frame_succ, if_neg hp]
  rw [Iridium.frame_at, Lib.Paging.translate]
  by_cases h₃ : present (m (frameNo S.cr3) (pml4_idx v)) = true
  · have top : (walk m v 4 (frameNo S.cr3)).map Hit.frame = (walk m v 3 (pdpt_of m S.cr3 v)).map Hit.frame :=
      walk_frame_table h₃ rfl
    by_cases h₂ : present (m (pdpt_of m S.cr3 v) (pdpt_idx v)) = true
    · have middle : (walk m v 3 (pdpt_of m S.cr3 v)).map Hit.frame =
          (walk m v 2 (pdt_of m S.cr3 v)).map Hit.frame := walk_frame_table h₂ (h.pdt v h₃ h₂).1
      by_cases h₁ : present (m (pdt_of m S.cr3 v) (pd_idx v)) = true
      · have ht : TablesPresent m S.cr3 v := ⟨h₃, h₂, h₁⟩
        rw [slot, if_pos ht]
        exact frame_of_leaf ht (h.pdt v h₃ h₂).1 (h.page_tbl v ht).1
      · rw [top, middle, hnone fun ht => h₁ ht.page_tbl]
        exact hstop h₁
    · rw [top, hnone fun ht => h₂ ht.pdt]
      exact hstop h₂
  · rw [hnone fun ht => h₃ ht.pdpt]
    exact hstop h₃

/-- **The tables stay the tables** when the words of the upper ones do not change. -/
theorem Tree.congr (h : S.Tree m) (hm : ∀ f ∈ S.upper, m' f = m f) :
    S.Tree m' ∧ ∀ v, slot m' S.cr3 v = slot m S.cr3 v := by
  have h₃ : m' (frameNo S.cr3) = m (frameNo S.cr3) := hm _ h.top
  have hpdpt : ∀ v, pdpt_of m' S.cr3 v = pdpt_of m S.cr3 v := fun v => by rw [pdpt_of, pdpt_of, h₃]
  have h₂ : ∀ v, present (m (frameNo S.cr3) (pml4_idx v)) = true →
      m' (pdpt_of m S.cr3 v) = m (pdpt_of m S.cr3 v) := fun v h₃ => hm _ (h.pdpt v h₃)
  have hpdt : ∀ v, present (m (frameNo S.cr3) (pml4_idx v)) = true → pdt_of m' S.cr3 v = pdt_of m S.cr3 v :=
    fun v hp => by rw [pdt_of, pdt_of, hpdpt, h₂ v hp]
  have h₁ : ∀ v, present (m (frameNo S.cr3) (pml4_idx v)) = true →
      present (m (pdpt_of m S.cr3 v) (pdpt_idx v)) = true → m' (pdt_of m S.cr3 v) = m (pdt_of m S.cr3 v) :=
    fun v hp hq => hm _ (h.pdt v hp hq).2
  have htables : ∀ v, TablesPresent m' S.cr3 v ↔ TablesPresent m S.cr3 v := by
    intro v
    constructor
    · rintro ⟨k₃, k₂, k₁⟩
      rw [h₃] at k₃
      rw [hpdpt, h₂ v k₃] at k₂
      rw [hpdt v k₃, h₁ v k₃ k₂] at k₁
      exact ⟨k₃, k₂, k₁⟩
    · rintro ⟨k₃, k₂, k₁⟩
      refine ⟨by rw [h₃]; exact k₃, by rw [hpdpt, h₂ v k₃]; exact k₂, ?_⟩
      rw [hpdt v k₃, h₁ v k₃ k₂]
      exact k₁
  have hpage : ∀ v, TablesPresent m S.cr3 v → page_tbl_of m' S.cr3 v = page_tbl_of m S.cr3 v :=
    fun v ht => by rw [page_tbl_of, page_tbl_of, hpdt v ht.pdpt, h₁ v ht.pdpt ht.pdt]
  have hslot : ∀ v, slot m' S.cr3 v = slot m S.cr3 v := by
    intro v
    unfold slot
    by_cases ht : TablesPresent m S.cr3 v
    · rw [if_pos ht, if_pos ((htables v).2 ht), hpage v ht]
    · rw [if_neg ht, if_neg (fun h => ht ((htables v).1 h))]
  refine ⟨⟨h.top, fun v k₃ => ?_, fun v k₃ k₂ => ?_, fun v ht => ?_, h.apart, ?_⟩, hslot⟩
  · rw [h₃] at k₃
    rw [hpdpt]
    exact h.pdpt v k₃
  · rw [h₃] at k₃
    rw [hpdpt, h₂ v k₃] at k₂ ⊢
    rw [hpdt v k₃]
    exact h.pdt v k₃ k₂
  · have ht := (htables v).1 ht
    rw [hpdt v ht.pdpt, h₁ v ht.pdpt ht.pdt, hpage v ht]
    exact h.page_tbl v ht
  · intro a ha b hb c hac hbc
    rw [hslot] at hac hbc
    exact h.leaves a ha b hb c hac hbc

/-- Nor where any address leads, when those of the page tables do not change either. -/
theorem Tree.frame_at_congr (h : S.Tree m) (hm : ∀ f, f ∈ S.upper ∨ f ∈ S.page_tbls → m' f = m f) (v : UInt64) :
    Iridium.frame_at m' S.cr3 v = Iridium.frame_at m S.cr3 v := by
  obtain ⟨h', hslot⟩ := h.congr fun f hf => hm f (.inl hf)
  rw [h'.frame_at, h.frame_at, hslot]
  cases hs : slot m S.cr3 v with
  | none => rfl
  | some c =>
    have hc : c.1 ∈ S.page_tbls := by
      unfold slot at hs
      split at hs
      next ht =>
        obtain rfl := Option.some.inj hs
        exact (h.page_tbl v ht).2
      next => cases hs
    rw [Option.bind_some, Option.bind_some, hm c.1 (.inr hc)]

/-- Every table of the space is one of its frames. -/
theorem Tree.tableAt {path : List ℕ} {t : ℕ} (h : S.Tree m)
    (ht : TableAt m (frameNo S.cr3) path t) : t ∈ S.upper ∨ t ∈ S.page_tbls := by
  obtain ⟨v, l, hl, rfl⟩ := ht.way
  -- the tables on the way of the address
  have h₃ : ∀ {t}, TableAt m (frameNo S.cr3) (pathTo v 3) t → t = frameNo S.cr3 := fun ht => ht.of_root
  have h₂ : ∀ {t}, TableAt m (frameNo S.cr3) (pathTo v 2) t →
      present (m (frameNo S.cr3) (pml4_idx v)) = true ∧ t = pdpt_of m S.cr3 v := by
    intro t ht
    obtain ⟨u, hu, hp, rfl⟩ := ht.of_entry
    obtain rfl := h₃ hu
    exact ⟨hp, rfl⟩
  have h₁ : ∀ {t}, TableAt m (frameNo S.cr3) (pathTo v 1) t → present (m (frameNo S.cr3) (pml4_idx v)) = true ∧
      present (m (pdpt_of m S.cr3 v) (pdpt_idx v)) = true ∧ t = pdt_of m S.cr3 v := by
    intro t ht
    obtain ⟨u, hu, hp, rfl⟩ := ht.of_entry
    obtain ⟨hp₃, rfl⟩ := h₂ hu
    exact ⟨hp₃, hp, rfl⟩
  obtain rfl | rfl | rfl | rfl : l = 3 ∨ l = 2 ∨ l = 1 ∨ l = 0 := by omega
  · rw [h₃ ht]
    exact .inl h.top
  · obtain ⟨hp₃, rfl⟩ := h₂ ht
    exact .inl (h.pdpt v hp₃)
  · obtain ⟨hp₃, hp₂, rfl⟩ := h₁ ht
    exact .inl (h.pdt v hp₃ hp₂).2
  · obtain ⟨u, hu, hp₁, rfl⟩ := ht.of_entry
    obtain ⟨hp₃, hp₂, rfl⟩ := h₁ hu
    exact .inr (h.page_tbl v ⟨hp₃, hp₂, hp₁⟩).2

/-! ### A page mapped -/

/-- A leaf with these flags is present, and its frame is what is put into it. -/
structure Leafs (flags : UInt32) : Prop where
  present : Lib.Paging.present flags.toUInt64 = true
  addr : flags.toUInt64 &&& addrMask = 0

theorem leafs_kernel : Leafs (PAGE_PRESENT ||| PAGE_WRITABLE) := ⟨by decide, by decide⟩

theorem leafs_user : Leafs (PAGE_PRESENT ||| PAGE_WRITABLE ||| PAGE_USER) := ⟨by decide, by decide⟩

theorem Leafs.replaced {flags : UInt32} (hf : Leafs flags) (w n : UInt64) (hn : ~~~n &&& 1 = 0) :
    Lib.Paging.present ((w &&& ~~~n) ||| flags.toUInt64) = true ∧
      entryFrame ((w &&& ~~~n) ||| flags.toUInt64) = frameNo (w &&& (~~~n &&& addrMask)) := by
  constructor
  · rw [Lib.Paging.present, replaced_and, hn, UInt64.and_zero, UInt64.zero_or]
    exact hf.present
  · rw [entryFrame, replaced_and, hf.addr, UInt64.or_zero]

/-- **A leaf replaced** decides where the addresses lead whose leaf it is. Of the frames its page table alone
has changed. -/
theorem Tree.set_leaf (h : S.Tree m) (ht : TablesPresent m S.cr3 v) (e : UInt64) :
    (∀ f ∉ S.page_tbls, m.set (page_tbl_of m S.cr3 v) (pt_idx v) e f = m f) ∧
      ∀ w, Iridium.frame_at (m.set (page_tbl_of m S.cr3 v) (pt_idx v) e) S.cr3 w =
        if slot m S.cr3 w = some (page_tbl_of m S.cr3 v, pt_idx v) then
          if Lib.Paging.present e then some (entryFrame e) else none
        else Iridium.frame_at m S.cr3 w := by
  have hpage := (h.page_tbl v ht).2
  have hother : ∀ f ∉ S.page_tbls, m.set (page_tbl_of m S.cr3 v) (pt_idx v) e f = m f := by
    intro f hf
    funext i
    exact m.set_of_ne _ fun he => hf ((Prod.mk.inj he).1 ▸ hpage)
  obtain ⟨h', hslot⟩ := h.congr fun f hf => hother f (h.apart f hf)
  refine ⟨hother, fun w => ?_⟩
  rw [h'.frame_at, h.frame_at, hslot]
  cases hw : slot m S.cr3 w with
  | none => simp
  | some d =>
    by_cases hd : d = (page_tbl_of m S.cr3 v, pt_idx v)
    · rw [hd, if_pos rfl, Option.bind_some, Ram.set_same]
    · rw [if_neg (fun he => hd (Option.some.inj he)), Option.bind_some, Option.bind_some, m.set_of_ne e hd]

/-- **What a mapping does**: of all frames it changes the page table with the leaf. A leaf that is present
keeps its frame, and one that is absent gets a frame of the allocator, for all addresses whose leaf it is. -/
theorem Tree.map {flags : UInt32} (h : S.Tree s.ram) (hf : Leafs flags)
    (hm : vmm_map_page s S.cr3 v flags = .ok s') :
    s'.cr3 = s.cr3 ∧ (∀ f ∉ S.page_tbls, s'.ram f = s.ram f) ∧
      ((s'.pmm = s.pmm ∧ ∀ w, Iridium.frame_at s'.ram S.cr3 w = Iridium.frame_at s.ram S.cr3 w) ∨
        ∃ c g, pmm_alloc s.pmm = .ok (g, s'.pmm) ∧ (∀ w, Iridium.frame_at s'.ram S.cr3 w =
          if slot s.ram S.cr3 w = some c then some (frameNo (g &&& PAGE_ADDR_MASK))
          else Iridium.frame_at s.ram S.cr3 w) ∧
          ∀ w, slot s.ram S.cr3 w = some c → Iridium.frame_at s.ram S.cr3 w = none) := by
  obtain ⟨-, ht, hl⟩ := vmm_map_page_ok.1 hm
  rcases set_leaf_ok.1 hl with ⟨hp, rfl⟩ | ⟨hp, g, pmm, hg, rfl⟩
  · obtain ⟨hother, hframe⟩ :=
      h.set_leaf ht ((s.ram (page_tbl_of s.ram S.cr3 v) (pt_idx v) &&& ~~~7) ||| flags.toUInt64)
    refine ⟨rfl, hother, .inl ⟨rfl, fun w => ?_⟩⟩
    have hmask : ~~~7 &&& addrMask = addrMask := by decide
    obtain ⟨hpres, hent⟩ := hf.replaced (s.ram (page_tbl_of s.ram S.cr3 v) (pt_idx v)) 7 (by decide)
    rw [hframe, hpres, hent, hmask, if_pos rfl]
    split
    next hw =>
      rw [h.frame_at, hw, Option.bind_some, if_pos hp]
      rfl
    next => rfl
  · obtain ⟨hother, hframe⟩ := h.set_leaf ht ((g &&& PAGE_ADDR_MASK) ||| flags.toUInt64)
    refine ⟨rfl, hother, .inr ⟨(page_tbl_of s.ram S.cr3 v, pt_idx v), g, hg, fun w => ?_, fun w hw => ?_⟩⟩
    · have hnot : PAGE_ADDR_MASK = ~~~0xFFF0000000000FFF := by decide
      have hmask : ~~~0xFFF0000000000FFF &&& addrMask = PAGE_ADDR_MASK := by decide
      obtain ⟨hpres, hent⟩ := hf.replaced g 0xFFF0000000000FFF (by decide)
      rw [← hnot] at hpres
      rw [hmask, ← hnot] at hent
      rw [hframe, hpres, hent, if_pos rfl]
    · rw [h.frame_at, hw, Option.bind_some, if_neg (ne_true_of_eq_false hp)]

/-! ### A space of its own -/

/-- The frame holds no table and no data of the kernel, and no page of the program lies on it. -/
structure Spare (S : Space) (m : Ram) (f : ℕ) : Prop where
  upper : f ∉ S.upper
  page_tbls : f ∉ S.page_tbls
  kernel : f ∉ S.kernel
  program : ∀ a ∈ S.program, Iridium.frame_at m S.cr3 a ≠ some f

/-- **The program has its frames for itself**: the space is loaded, its tables are in order, no two pages
of the program lie on one frame, none lies on a table or on data of the kernel, and the frames that are free
are spare. -/
structure Own (S : Space) (s : Vm) : Prop where
  cr3 : s.cr3 = S.cr3
  tree : S.Tree s.ram
  frames : ∀ a ∈ S.program, ∀ b ∈ S.program, ∀ f, Iridium.frame_at s.ram S.cr3 a = some f →
    Iridium.frame_at s.ram S.cr3 b = some f → frameNo a = frameNo b
  apart : ∀ a ∈ S.program, ∀ f, Iridium.frame_at s.ram S.cr3 a = some f →
    f ∉ S.upper ∧ f ∉ S.page_tbls ∧ f ∉ S.kernel
  free : ∀ i, s.pmm.bitmap i = BITMAP_FREE → i.toNat < 2 ^ 40 ∧ S.Spare s.ram i.toNat

theorem Own.congr (h : S.Own s) (hc : s'.cr3 = s.cr3) (hp : s'.pmm = s.pmm)
    (hm : ∀ f ∈ S.upper, s'.ram f = s.ram f)
    (hf : ∀ v, Iridium.frame_at s'.ram S.cr3 v = Iridium.frame_at s.ram S.cr3 v) : S.Own s' := by
  have hspare : ∀ {f}, S.Spare s.ram f → S.Spare s'.ram f :=
    fun hs => ⟨hs.upper, hs.page_tbls, hs.kernel, fun a ha => by rw [hf]; exact hs.program a ha⟩
  refine ⟨hc.trans h.cr3, (h.tree.congr hm).1, fun a ha b hb f => ?_, fun a ha f => ?_, fun i hi => ?_⟩
  · rw [hf, hf]
    exact h.frames a ha b hb f
  · rw [hf]
    exact h.apart a ha f
  · rw [hp] at hi
    obtain ⟨hlt, hs⟩ := h.free i hi
    exact ⟨hlt, hspare hs⟩

/-- The frame that an allocation answers with is spare, and no longer free. -/
theorem Own.alloc (h : S.Own s) {g : UInt64} {p : Pmm} (hg : pmm_alloc s.pmm = .ok (g, p)) (hl : p.lock = false) :
    S.Spare s.ram (frameNo (g &&& PAGE_ADDR_MASK)) ∧
      ∀ i, p.bitmap i = BITMAP_FREE → s.pmm.bitmap i = BITMAP_FREE ∧ i.toNat ≠ frameNo (g &&& PAGE_ADDR_MASK) := by
  obtain ⟨-, ⟨-, rfl, rfl⟩ | ⟨-, hfree, rfl, rfl⟩⟩ := pmm_alloc_cases hg
  · cases hl
  · obtain ⟨hlt, hs⟩ := h.free _ hfree
    have hframe : frameNo (0x1000 * s.pmm.search.2 &&& PAGE_ADDR_MASK) = s.pmm.search.2.toNat := by
      have hdiv := congrArg UInt64.toNat (frame_of_address (UInt64.lt_iff_toNat_lt.2 hlt))
      rw [UInt64.toNat_div] at hdiv
      exact hdiv
    rw [hframe]
    refine ⟨hs, fun i hi => ?_⟩
    by_cases he : i = s.pmm.search.2
    · rw [he] at hi
      simp [BITMAP_FREE] at hi
    · exact ⟨by simpa [he] using hi, fun hn => he (UInt64.toNat_inj.1 hn)⟩

/-- **A mapping keeps the space in order.** -/
theorem Own.map {flags : UInt32} (h : S.Own s) (hf : Leafs flags) (hfed : s.pmm.feeds 1 = true)
    (hm : vmm_map_page s S.cr3 v flags = .ok s') : S.Own s' := by
  obtain ⟨hc, hother, ⟨hp, hframe⟩ | ⟨c, g, hg, hframe, -⟩⟩ := h.tree.map hf hm
  · exact h.congr hc hp (fun f hf => hother f (h.tree.apart f hf)) hframe
  · obtain ⟨hspare, hfree⟩ := h.alloc hg (Pmm.feeds_succ hfed hg).1
    obtain ⟨htree, hslot⟩ := h.tree.congr fun f hf => hother f (h.tree.apart f hf)
    -- a page has the new frame, or the one it had
    have hcases : ∀ a f, Iridium.frame_at s'.ram S.cr3 a = some f →
        (slot s.ram S.cr3 a = some c ∧ f = frameNo (g &&& PAGE_ADDR_MASK)) ∨
          Iridium.frame_at s.ram S.cr3 a = some f := by
      intro a f ha
      rw [hframe] at ha
      split at ha
      next hs => exact .inl ⟨hs, (Option.some.inj ha).symm⟩
      next => exact .inr ha
    have hkeeps : ∀ {f}, S.Spare s.ram f → f ≠ frameNo (g &&& PAGE_ADDR_MASK) → S.Spare s'.ram f := by
      intro f hs hne
      refine ⟨hs.upper, hs.page_tbls, hs.kernel, fun a ha hfa => ?_⟩
      rcases hcases a f hfa with ⟨-, he⟩ | hold
      · exact hne he
      · exact hs.program a ha hold
    refine ⟨hc.trans h.cr3, htree, fun a ha b hb f hfa hfb => ?_, fun a ha f hfa => ?_, fun i hi => ?_⟩
    · rcases hcases a f hfa with ⟨hsa, rfl⟩ | hold
      · rcases hcases b _ hfb with ⟨hsb, -⟩ | hold
        · exact h.tree.leaves a ha b hb c hsa hsb
        · exact absurd hold (hspare.program b hb)
      · rcases hcases b f hfb with ⟨-, rfl⟩ | hold'
        · exact absurd hold (hspare.program a ha)
        · exact h.frames a ha b hb f hold hold'
    · rcases hcases a f hfa with ⟨-, rfl⟩ | hold
      · exact ⟨hspare.upper, hspare.page_tbls, hspare.kernel⟩
      · exact h.apart a ha f hold
    · obtain ⟨hi, hne⟩ := hfree i hi
      obtain ⟨hlt, hs⟩ := h.free i hi
      exact ⟨hlt, hkeeps hs hne⟩

/-! ### Putting bytes -/

/-- **The bytes `w` have been put**: they are at their addresses, which are the program's. An address that had
a frame has it still, and outside the page tables nothing else has changed. -/
structure Loads (S : Space) (w : UInt64 → Option UInt8) (s s' : Vm) : Prop where
  keeps : ∀ a f, Iridium.frame_at s.ram S.cr3 a = some f → Iridium.frame_at s'.ram S.cr3 a = some f
  put : ∀ a b, w a = some b → a ∈ S.program ∧ byteAt s'.ram S.cr3 a = some b
  rest : ∀ f ∉ S.page_tbls, ∀ o < 4096,
    (∀ a b, w a = some b → Iridium.frame_at s'.ram S.cr3 a = some f → a.toNat % 4096 ≠ o) →
      byteOf s'.ram f o = byteOf s.ram f o

/-- The states differ only in what the frames that are no tables hold. -/
structure Alike (S : Space) (s t : Vm) : Prop where
  cr3 : t.cr3 = s.cr3
  pmm : t.pmm = s.pmm
  lock : t.lock = s.lock
  tables : ∀ f, f ∈ S.upper ∨ f ∈ S.page_tbls → t.ram f = s.ram f

/-- **A part of the loader that puts `w`**, with `n` allocations of frames at the most. -/
def Puts (S : Space) (n : ℕ) (f : Vm → Kern Vm) (w : UInt64 → Option UInt8) : Prop :=
  ∀ s s' k, S.Own s → s.pmm.feeds (n + k) = true → f s = .ok s' →
    S.Own s' ∧ s'.pmm.feeds k = true ∧ S.Loads w s s' ∧ ∀ t, S.Alike s t → ∃ t', f t = .ok t' ∧ S.Alike s' t'

theorem Alike.refl (s : Vm) : S.Alike s s := ⟨rfl, rfl, rfl, fun _ _ => rfl⟩

theorem Alike.own (h : S.Alike s t) (ho : S.Own s) : S.Own t :=
  ho.congr h.cr3 h.pmm (fun f hf => h.tables f (.inl hf)) (ho.tree.frame_at_congr h.tables)

/-- An address of the program is determined by where it lies in memory. -/
theorem Own.addr_inj (h : S.Own s) {b : UInt64} (ha : a ∈ S.program) (hb : b ∈ S.program) {f : ℕ}
    (hfa : Iridium.frame_at s.ram S.cr3 a = some f) (hfb : Iridium.frame_at s.ram S.cr3 b = some f)
    (ho : a.toNat % 4096 = b.toNat % 4096) : a = b := by
  have hpage : a.toNat / 4096 = b.toNat / 4096 := h.frames a ha b hb f hfa hfb
  apply UInt64.toNat_inj.1
  omega

/-- A byte that has been put stays when others are put elsewhere. -/
theorem Loads.stays {w : UInt64 → Option UInt8} {b : UInt8} (h : S.Loads w s s') (ho : S.Own s')
    (ha : a ∈ S.program) (hw : w a = none) (hb : byteAt s.ram S.cr3 a = some b) :
    byteAt s'.ram S.cr3 a = some b := by
  obtain ⟨f, hf, rfl⟩ := Option.map_eq_some_iff.1 hb
  have hf' := h.keeps a f hf
  rw [byteAt, hf', Option.map_some, h.rest f (ho.apart a ha f hf').2.1 _ (Nat.mod_lt _ (by decide))]
  intro c d hc hfc he
  rw [ho.addr_inj (h.put c d hc).1 ha hfc hf' he, hw] at hc
  cases hc

theorem Puts.nothing : S.Puts 0 (fun s => .ok s) fun _ => none := by
  intro s s' k ho hfed h
  obtain rfl := Except.ok.inj h
  rw [Nat.zero_add] at hfed
  exact ⟨ho, hfed, ⟨fun _ _ h => h, fun _ _ h => (by cases h), fun _ _ _ _ _ => rfl⟩, fun t ht => ⟨t, rfl, ht⟩⟩

/-- More frames than it takes. -/
theorem Puts.mono {f : Vm → Kern Vm} {w : UInt64 → Option UInt8} {n n' : ℕ} (hf : S.Puts n f w) (hn : n ≤ n') :
    S.Puts n' f w :=
  fun s s' k ho hfed h => hf s s' k ho (Pmm.feeds_mono hfed (Nat.add_le_add_right hn k)) h

/-- **One part after the other.** -/
theorem Puts.bind {f g : Vm → Kern Vm} {w w' : UInt64 → Option UInt8} {n n' : ℕ} (hf : S.Puts n f w)
    (hg : S.Puts n' g w') : S.Puts (n + n') (fun s => f s >>= g) fun a => (w' a).or (w a) := by
  intro s s' k ho hfed h
  obtain ⟨u, hu, h⟩ := bind_ok.1 h
  rw [Nat.add_assoc] at hfed
  obtain ⟨hou, hfedu, hl, halike⟩ := hf s u (n' + k) ho hfed hu
  obtain ⟨ho', hfed', hl', halike'⟩ := hg u s' k hou hfedu h
  refine ⟨ho', hfed', ⟨fun a p hp => hl'.keeps a p (hl.keeps a p hp), fun a b hb => ?_, fun p hp o hlt hno => ?_⟩,
    fun t ht => ?_⟩
  · cases hw' : w' a with
    | some b' =>
      rw [hw'] at hb
      obtain rfl := Option.some.inj hb
      exact hl'.put a b' hw'
    | none =>
      rw [hw', Option.none_or] at hb
      obtain ⟨ha, hbyte⟩ := hl.put a b hb
      exact ⟨ha, hl'.stays ho' ha hw' hbyte⟩
  · rw [hl'.rest p hp o hlt fun a b hb => hno a b (by rw [hb]; rfl)]
    refine hl.rest p hp o hlt fun a b hb hpa => ?_
    have hpa' := hl'.keeps a p hpa
    cases hw' : w' a with
    | some b' => exact hno a b' (by rw [hw']; rfl) hpa'
    | none => exact hno a b (by rw [hw', Option.none_or, hb]) hpa'
  · obtain ⟨v, hv, hvu⟩ := halike t ht
    obtain ⟨t', ht', hs'⟩ := halike' v hvu
    exact ⟨t', bind_ok.2 ⟨v, hv, ht'⟩, hs'⟩

/-- Two parts that are the same in the space. -/
theorem Puts.of_eq {f g : Vm → Kern Vm} {w : UInt64 → Option UInt8} {n : ℕ} (hg : S.Puts n g w)
    (h : ∀ s, s.cr3 = S.cr3 → f s = g s) : S.Puts n f w := by
  intro s s' k ho hfed hs
  rw [h s ho.cr3] at hs
  obtain ⟨ho', hfed', hl, halike⟩ := hg s s' k ho hfed hs
  refine ⟨ho', hfed', hl, fun t ht => ?_⟩
  rw [h t (ht.cr3.trans ho.cr3)]
  exact halike t ht

/-- The same word written in both. -/
theorem Alike.set (h : S.Alike s t) (p : Pmm) (f i : ℕ) (w : UInt64) :
    S.Alike { s with pmm := p, ram := s.ram.set f i w } { t with pmm := p, ram := t.ram.set f i w } := by
  refine ⟨h.cr3, rfl, h.lock, fun g hg => ?_⟩
  funext j
  by_cases he : (g, j) = (f, i)
  · obtain ⟨rfl, rfl⟩ := Prod.mk.inj he
    exact (Ram.set_same _ _ _ _).trans (Ram.set_same _ _ _ _).symm
  · exact (t.ram.set_of_ne w he).trans ((congrFun (h.tables g hg) j).trans (s.ram.set_of_ne w he).symm)

/-- A mapping that returns does so in a state alike. -/
theorem Alike.map {flags : UInt32} (h : S.Alike s t) (ht : S.Tree s.ram)
    (hm : vmm_map_page s S.cr3 v flags = .ok s') :
    ∃ t', vmm_map_page t S.cr3 v flags = .ok t' ∧ S.Alike s' t' := by
  obtain ⟨hlock, htab, hleaf⟩ := vmm_map_page_ok.1 hm
  have hslot := (ht.congr fun f hf => h.tables f (.inl hf)).2 v
  unfold slot at hslot
  rw [if_pos htab] at hslot
  have htab' : TablesPresent t.ram S.cr3 v := by
    by_contra hno
    rw [if_neg hno] at hslot
    cases hslot
  rw [if_pos htab'] at hslot
  have hpage : page_tbl_of t.ram S.cr3 v = page_tbl_of s.ram S.cr3 v :=
    (Prod.mk.inj (Option.some.inj hslot)).1
  have hword : t.ram (page_tbl_of s.ram S.cr3 v) = s.ram (page_tbl_of s.ram S.cr3 v) :=
    h.tables _ (.inr (ht.page_tbl v htab).2)
  have hreturns : ∀ {t'}, set_leaf t (page_tbl_of s.ram S.cr3 v) (pt_idx v) flags = .ok t' →
      vmm_map_page t S.cr3 v flags = .ok t' :=
    fun ht' => vmm_map_page_ok.2 ⟨h.lock.trans hlock, htab', by rw [hpage]; exact ht'⟩
  rcases set_leaf_ok.1 hleaf with ⟨hp, rfl⟩ | ⟨hp, g, p, hg, rfl⟩
  · refine ⟨_, hreturns (set_leaf_ok.2 (.inl ⟨by rw [hword]; exact hp, rfl⟩)), ?_⟩
    rw [hword, ← h.pmm]
    exact h.set t.pmm _ _ _
  · exact ⟨_, hreturns (set_leaf_ok.2 (.inr ⟨by rw [hword]; exact hp, g, p, by rw [h.pmm]; exact hg, rfl⟩)),
      h.set p _ _ _⟩

/-- **A mapping** puts nothing. -/
theorem Puts.map {flags : UInt32} (hf : Leafs flags) (v : UInt64) :
    S.Puts 1 (fun s => vmm_map_page s S.cr3 v flags) fun _ => none := by
  intro s s' k ho hfed h
  obtain ⟨-, hother, hframe⟩ := ho.tree.map hf h
  refine ⟨ho.map hf (Pmm.feeds_mono hfed (Nat.le_add_right 1 k)) h, map_feeds hfed h, ⟨fun a f hfa => ?_, fun _ _ h => (by cases h), fun f hp o _ _ => ?_⟩,
    fun t ht => ht.map ho.tree h⟩
  · rcases hframe with ⟨-, hframe⟩ | ⟨c, g, -, hframe, hnone⟩
    · rw [hframe, hfa]
    · rw [hframe, if_neg, hfa]
      intro hs
      rw [hnone a hs] at hfa
      cases hfa
  · rw [byteOf, byteOf, hother f hp]

/-- A byte put into a frame that is no table changes no table. -/
theorem tables_putByte {f o : ℕ} (hup : f ∉ S.upper) (htab : f ∉ S.page_tbls) (m : Ram) (b : UInt8) :
    ∀ g, g ∈ S.upper ∨ g ∈ S.page_tbls → putByte m f o b g = m g := by
  intro g hg
  apply putByte_of_ne
  rintro rfl
  rcases hg with hg | hg
  · exact hup hg
  · exact htab hg

/-- **A byte written** to an address of the program is put there. -/
theorem Puts.write8 (ha : a ∈ S.program) (b : UInt8) :
    S.Puts 0 (fun s => write8 s a b) fun x => if x = a then some b else none := by
  intro s s' k ho hfed h
  obtain ⟨f, hf, rfl⟩ := write8_ok.1 h
  rw [ho.cr3] at hf
  rw [Nat.zero_add] at hfed
  obtain ⟨hup, htab, -⟩ := ho.apart a ha f hf
  have hother := tables_putByte (o := a.toNat % 4096) hup htab s.ram b
  have hframe := ho.tree.frame_at_congr hother
  refine ⟨ho.congr rfl rfl (fun g hg => hother g (.inl hg)) hframe, hfed,
    ⟨fun x g hg => (hframe x).trans hg, fun x c hx => ?_, fun g _ o _ hno => ?_⟩, fun t ht => ?_⟩
  · by_cases hxa : x = a
    · subst hxa
      obtain rfl : b = c := by simpa using hx
      refine ⟨ha, ?_⟩
      rw [byteAt, hframe, hf, Option.map_some, byteOf_putByte, if_pos ⟨rfl, rfl⟩]
    · rw [if_neg hxa] at hx
      cases hx
  · change byteOf (putByte s.ram f (a.toNat % 4096) b) g o = _
    rw [byteOf_putByte, if_neg]
    rintro ⟨rfl, rfl⟩
    exact hno a b (if_pos rfl) ((hframe a).trans hf) rfl
  · have hft : Iridium.frame_at t.ram t.cr3 a = some f := by
      rw [ht.cr3, ho.cr3, ho.tree.frame_at_congr ht.tables, hf]
    refine ⟨_, write8_ok.2 ⟨f, hft, rfl⟩, ht.cr3, ht.pmm, ht.lock, fun g hg => ?_⟩
    exact (tables_putByte hup htab t.ram b g hg).trans ((ht.tables g hg).trans (hother g hg).symm)

/-- **A byte that is not put** may be any: it is what the frame held. -/
theorem Puts.missing {f : Vm → Kern Vm} {w : UInt64 → Option UInt8} {n : ℕ} (hf : S.Puts n f w) (ho : S.Own s)
    (hfed : s.pmm.feeds n = true) (h : f s = .ok s') (ha : a ∈ S.program) (hw : w a = none) {p : ℕ}
    (hp : Iridium.frame_at s'.ram S.cr3 a = some p) (b : UInt8) :
    ∃ t t', S.Alike s t ∧ f t = .ok t' ∧ byteAt t'.ram S.cr3 a = some b := by
  obtain ⟨ho', -, -, halike⟩ := hf s s' 0 ho hfed h
  obtain ⟨hup, htab, -⟩ := ho'.apart a ha p hp
  have ht : S.Alike s { s with ram := putByte s.ram p (a.toNat % 4096) b } :=
    ⟨rfl, rfl, rfl, tables_putByte hup htab s.ram b⟩
  obtain ⟨t', ht', hst⟩ := halike _ ht
  obtain ⟨hot', -, hl, -⟩ := hf _ t' 0 (ht.own ho) hfed ht'
  have hpt : Iridium.frame_at t'.ram S.cr3 a = some p := by rw [ho'.tree.frame_at_congr hst.tables, hp]
  refine ⟨_, t', ht, ht', ?_⟩
  rw [byteAt, hpt, Option.map_some, hl.rest p htab _ (Nat.mod_lt _ (by decide)), byteOf_putByte, if_pos ⟨rfl, rfl⟩]
  intro c d hc hpc he
  rw [hot'.addr_inj (hl.put c d hc).1 ha hpc hpt he, hw] at hc
  cases hc

end Space

end Iridium
