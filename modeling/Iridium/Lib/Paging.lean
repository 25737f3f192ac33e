import Mathlib.Algebra.Group.Nat.Defs
import Mathlib.Logic.Function.Basic
import Mathlib.Tactic.Common
import Mathlib.Tactic.Cases

/-!
# Four-level paging

The page-table walk of an x86-64 processor, over a physical memory of frames of 512
words. A table is a frame; an entry of a table at level `l + 1` leads to a table of
level `l`, and at level `0` the frame reached is the page itself. At the two middle
levels an entry may map a huge page. The processor allows what *every* entry of the
walk allows.

`footprint` lists the words a walk reads. It carries the frame conditions: a walk
depends on nothing else (`walk_congr`), its rights are the conjunction over those words
(`walk_rights`), and a walk one of whose words becomes absent ends nowhere (`walk_absent`).
-/

namespace Lib.Paging

/-- Physical memory: frame, then word of the frame. -/
abbrev Ram := ℕ → ℕ → UInt64

/-- One word replaced. -/
def Ram.set (m : Ram) (f i : ℕ) (w : UInt64) : Ram :=
  fun g j => if g = f ∧ j = i then w else m g j

/-- One frame replaced. -/
def Ram.setFrame (m : Ram) (f : ℕ) (c : ℕ → UInt64) : Ram := fun g => if g = f then c else m g

@[simp] theorem Ram.set_same (m : Ram) (f i : ℕ) (w : UInt64) : m.set f i w f i = w := by
  simp [Ram.set]

theorem Ram.set_of_ne (m : Ram) {f i g j : ℕ} (w : UInt64) (h : (g, j) ≠ (f, i)) :
    m.set f i w g j = m g j := by
  have hne : ¬(g = f ∧ j = i) := fun e => h (by rw [e.1, e.2])
  simp [Ram.set, hne]

@[simp] theorem Ram.setFrame_same (m : Ram) (f : ℕ) (c : ℕ → UInt64) : m.setFrame f c f = c := by
  simp [Ram.setFrame]

theorem Ram.setFrame_of_ne (m : Ram) {f g : ℕ} (c : ℕ → UInt64) (h : g ≠ f) :
    m.setFrame f c g = m g := by
  simp [Ram.setFrame, h]

/-! ### Entries -/

/-- The bits of an entry that hold a frame address. -/
def addrMask : UInt64 := 0x000FFFFFFFFFF000

/-- The entry maps something. -/
def present (e : UInt64) : Bool := e &&& 1 != 0

/-- The entry allows writing. -/
def writable (e : UInt64) : Bool := e &&& 2 != 0

/-- The entry allows ring 3. -/
def user (e : UInt64) : Bool := e &&& 4 != 0

/-- At a middle level the entry maps a huge page. -/
def huge (e : UInt64) : Bool := e &&& 0x80 != 0

/-- The frame an address lies in. -/
def frameNo (a : UInt64) : ℕ := a.toNat / 4096

/-- The frame an entry points to. -/
def entryFrame (e : UInt64) : ℕ := frameNo (e &&& addrMask)

/-- The index of an address in a table whose entries lead to level `l`. -/
def index (l : ℕ) (v : UInt64) : ℕ := ((v >>> UInt64.ofNat (12 + 9 * l)) &&& 0x1ff).toNat

/-- The entry ends the walk before the last level. -/
def endsHuge (l : ℕ) (e : UInt64) : Bool := (l == 1 || l == 2) && huge e

/-- The 4 KiB frame of an address inside a huge page. -/
def hugeFrame (l : ℕ) (e v : UInt64) : ℕ :=
  entryFrame e / 2 ^ (9 * l) * 2 ^ (9 * l) + frameNo v % 2 ^ (9 * l)

/-! ### The walk -/

/-- What a walk ends in: a frame, and what all entries together allow. -/
@[ext]
structure Hit where
  /-- The 4 KiB frame of the page. -/
  frame : ℕ
  /-- Writing is allowed. -/
  writable : Bool
  /-- Ring 3 is allowed. -/
  user : Bool
  deriving DecidableEq, Repr

/-- What is left when an entry has had its say. -/
def Hit.through (h : Hit) (e : UInt64) : Hit :=
  { h with writable := h.writable && Paging.writable e, user := h.user && Paging.user e }

/-- **The walk** of address `v` from table `t` of level `l`. -/
def walk (m : Ram) (v : UInt64) : ℕ → ℕ → Option Hit
  | 0, t => some ⟨t, true, true⟩
  | l + 1, t =>
    let e := m t (index l v)
    if present e then
      if endsHuge l e then some (Hit.through ⟨hugeFrame l e v, true, true⟩ e)
      else (walk m v l (entryFrame e)).map (·.through e)
    else none

/-- The words the walk reads. -/
def footprint (m : Ram) (v : UInt64) : ℕ → ℕ → List (ℕ × ℕ)
  | 0, _ => []
  | l + 1, t =>
    let e := m t (index l v)
    (t, index l v) :: if present e && !endsHuge l e then footprint m v l (entryFrame e) else []

/-- The translation the processor makes with `cr3` loaded. -/
def translate (m : Ram) (cr3 v : UInt64) : Option Hit := walk m v 4 (frameNo cr3)

/-- The words that translation reads. -/
def words (m : Ram) (cr3 v : UInt64) : List (ℕ × ℕ) := footprint m v 4 (frameNo cr3)

variable {m m' : Ram} {v : UInt64} {l t : ℕ} {h : Hit}

/-- An index is nine bits of the address. -/
theorem index_eq (hl : l ≤ 5) : index l v = v.toNat / 2 ^ (12 + 9 * l) % 512 := by
  have h64 : (UInt64.ofNat (12 + 9 * l)).toNat % 64 = 12 + 9 * l := by
    rw [UInt64.toNat_ofNat']
    omega
  rw [index, UInt64.toNat_and, UInt64.toNat_shiftRight, h64, Nat.shiftRight_eq_div_pow]
  exact Nat.and_two_pow_sub_one_eq_mod _ 9

/-- Addresses of one page are walked alike. -/
theorem walk_page {v' : UInt64} (hv : frameNo v' = frameNo v) (hl : l ≤ 5) :
    walk m v' l t = walk m v l t ∧ footprint m v' l t = footprint m v l t := by
  induction l generalizing t with
  | zero => exact ⟨rfl, rfl⟩
  | succ l ih =>
    have hi : index l v' = index l v := by
      have hpow : ∀ a : ℕ, a / 2 ^ (12 + 9 * l) = a / 4096 / 2 ^ (9 * l) := fun a => by
        rw [Nat.div_div_eq_div_mul, Nat.pow_add]
      have hdiv : v'.toNat / 4096 = v.toNat / 4096 := hv
      rw [index_eq (by omega), index_eq (by omega), hpow, hpow, hdiv]
    have ih := fun t => ih (t := t) (by omega)
    simp only [walk, footprint, hi, hugeFrame, hv, ih, and_self]

/-- A walk depends only on the words it reads. -/
theorem walk_congr (hm : ∀ c ∈ footprint m v l t, m' c.1 c.2 = m c.1 c.2) :
    walk m' v l t = walk m v l t := by
  induction l generalizing t with
  | zero => rfl
  | succ l ih =>
    have he : m' t (index l v) = m t (index l v) := hm (t, index l v) (by simp [footprint])
    simp only [walk, he]
    by_cases hp : present (m t (index l v)) && !endsHuge l (m t (index l v))
    · have := ih (t := entryFrame (m t (index l v))) fun c hc =>
        hm c (by simp [footprint, hp, hc])
      rw [this]
    · by_cases hp' : present (m t (index l v)) = true
      · simp only [hp', Bool.true_and, Bool.not_eq_true', Bool.not_eq_false] at hp
        simp [hp]
      · simp [hp']

/-- So do the words it reads. -/
theorem footprint_congr (hm : ∀ c ∈ footprint m v l t, m' c.1 c.2 = m c.1 c.2) :
    footprint m' v l t = footprint m v l t := by
  induction l generalizing t with
  | zero => rfl
  | succ l ih =>
    have he : m' t (index l v) = m t (index l v) := hm (t, index l v) (by simp [footprint])
    simp only [footprint, he]
    by_cases hp : (present (m t (index l v)) && !endsHuge l (m t (index l v))) = true
    · rw [if_pos hp, if_pos hp]
      rw [ih fun c hc => hm c (by simp [footprint, hp, hc])]
    · rw [if_neg hp, if_neg hp]

/-- Two tables with the same entries lead to the same place. -/
theorem walk_same_entries {t' : ℕ} (ht : m t' = m t) : walk m v (l + 1) t' = walk m v (l + 1) t := by
  simp only [walk, ht]

theorem index_lt : index l v < 512 := by
  rw [index, UInt64.toNat_and]
  exact Nat.lt_of_le_of_lt Nat.and_le_right (by decide)

/-- A table has 512 words. -/
theorem lt_of_mem_footprint {c : ℕ × ℕ} (hc : c ∈ footprint m v l t) : c.2 < 512 := by
  induction l generalizing t with
  | zero => simp [footprint] at hc
  | succ l ih =>
    rw [footprint, List.mem_cons] at hc
    rcases hc with rfl | hc
    · exact index_lt
    · split at hc
      · exact ih hc
      · cases hc

/-- The frame a walk ends in, from its first entry on. -/
theorem walk_frame_succ : (walk m v (l + 1) t).map Hit.frame =
    if present (m t (index l v)) then
      if endsHuge l (m t (index l v)) then some (hugeFrame l (m t (index l v)) v)
      else (walk m v l (entryFrame (m t (index l v)))).map Hit.frame
    else none := by
  rw [walk]
  split
  · split
    · rfl
    · rw [Option.map_map]
      rfl
  · rfl

/-- An entry that leads to a table. -/
theorem walk_frame_table (hp : present (m t (index l v)) = true) (hu : endsHuge l (m t (index l v)) = false) :
    (walk m v (l + 1) t).map Hit.frame = (walk m v l (entryFrame (m t (index l v)))).map Hit.frame := by
  rw [walk_frame_succ, if_pos hp, if_neg (ne_true_of_eq_false hu)]

/-- A walk that succeeds, taken apart at its first entry. -/
theorem walk_succ_some : walk m v (l + 1) t = some h ↔
    present (m t (index l v)) = true ∧
      ((endsHuge l (m t (index l v)) = true ∧
          h = Hit.through ⟨hugeFrame l (m t (index l v)) v, true, true⟩ (m t (index l v))) ∨
        (endsHuge l (m t (index l v)) = false ∧
          ∃ h', walk m v l (entryFrame (m t (index l v))) = some h' ∧
            h = h'.through (m t (index l v)))) := by
  rw [walk]
  cases hp : present (m t (index l v)) with
  | false => simp
  | true =>
    cases hu : endsHuge l (m t (index l v)) with
    | true => simp [eq_comm]
    | false => simp [Option.map_eq_some_iff, eq_comm (b := h)]

/-- The words read when the first entry is present. -/
theorem footprint_present (hp : present (m t (index l v)) = true) : footprint m v (l + 1) t =
    (t, index l v) :: if endsHuge l (m t (index l v)) then []
      else footprint m v l (entryFrame (m t (index l v))) := by
  rw [footprint, hp]
  cases endsHuge l (m t (index l v)) <;> rfl

/-- The words read behind the first entry. -/
theorem mem_footprint_succ {c : ℕ × ℕ} : c ∈ footprint m v (l + 1) t ↔
    c = (t, index l v) ∨ (present (m t (index l v)) = true ∧ endsHuge l (m t (index l v)) = false ∧
      c ∈ footprint m v l (entryFrame (m t (index l v)))) := by
  simp only [footprint, List.mem_cons]
  cases present (m t (index l v)) <;> cases endsHuge l (m t (index l v)) <;> simp

/-- The entries of a walk that succeeds are present. -/
theorem present_of_mem (hw : walk m v l t = some h) {c : ℕ × ℕ} (hc : c ∈ footprint m v l t) :
    present (m c.1 c.2) = true := by
  induction l generalizing t h with
  | zero => simp [footprint] at hc
  | succ l ih =>
    obtain ⟨hp, ⟨hu, -⟩ | ⟨hu, h', hw', -⟩⟩ := walk_succ_some.1 hw
    · rcases mem_footprint_succ.1 hc with rfl | ⟨-, hu', -⟩
      · exact hp
      · rw [hu] at hu'; cases hu'
    · rcases mem_footprint_succ.1 hc with rfl | ⟨-, -, hc⟩
      · exact hp
      · exact ih hw' hc

/-- A walk allows writing when every word it reads does, and ring 3 when every word it
reads does. -/
theorem walk_rights (hw : walk m v l t = some h) :
    h.writable = ((footprint m v l t).all fun c => writable (m c.1 c.2)) ∧
      h.user = (footprint m v l t).all fun c => user (m c.1 c.2) := by
  induction l generalizing t h with
  | zero =>
    obtain rfl : (⟨t, true, true⟩ : Hit) = h := by simpa [walk] using hw
    simp [footprint]
  | succ l ih =>
    obtain ⟨hp, ⟨hu, rfl⟩ | ⟨hu, h', hw', rfl⟩⟩ := walk_succ_some.1 hw
    · simp [footprint, hu, Hit.through]
    · obtain ⟨h₁, h₂⟩ := ih hw'
      simp [footprint, hp, hu, Hit.through, h₁, h₂, Bool.and_comm]

/-- An entry that is present and has the rights of `flags`. -/
def Allows (flags e : UInt64) : Prop :=
  present e = true ∧ (writable flags = true → writable e = true) ∧ (user flags = true → user e = true)

instance (flags e : UInt64) : Decidable (Allows flags e) := inferInstanceAs (Decidable (_ ∧ _))

/-- **A walk succeeds with the rights of `flags`** when every word it reads allows them. -/
theorem walk_allows_iff {flags : UInt64} :
    (∃ h, walk m v l t = some h ∧ (writable flags = true → h.writable = true) ∧
      (user flags = true → h.user = true)) ↔
      ∀ c ∈ footprint m v l t, Allows flags (m c.1 c.2) := by
  induction l generalizing t with
  | zero => simp [walk, footprint]
  | succ l ih =>
    constructor
    · rintro ⟨h, hw, hwr, hus⟩ c hc
      rw [(walk_rights hw).1, List.all_eq_true] at hwr
      rw [(walk_rights hw).2, List.all_eq_true] at hus
      exact ⟨present_of_mem hw hc, fun hf => hwr hf c hc, fun hf => hus hf c hc⟩
    · intro hall
      obtain ⟨hp, hwr, hus⟩ := hall (t, index l v) (mem_footprint_succ.2 (.inl rfl))
      dsimp only at hp hwr hus
      cases hu : endsHuge l (m t (index l v)) with
      | true =>
        exact ⟨_, walk_succ_some.2 ⟨hp, .inl ⟨hu, rfl⟩⟩, by simpa [Hit.through], by simpa [Hit.through]⟩
      | false =>
        obtain ⟨h, hw, hwr', hus'⟩ := ih.2 fun c hc => hall c (mem_footprint_succ.2 (.inr ⟨hp, hu, hc⟩))
        refine ⟨_, walk_succ_some.2 ⟨hp, .inr ⟨hu, h, hw, rfl⟩⟩, fun hf => ?_, fun hf => ?_⟩
        · simp [Hit.through, hwr hf, hwr' hf]
        · simp [Hit.through, hus hf, hus' hf]

/-- A walk succeeds and allows writing when every word it reads does. -/
theorem walk_writable_iff : (∃ h, walk m v l t = some h ∧ h.writable = true) ↔
    ∀ c ∈ footprint m v l t, Allows 2 (m c.1 c.2) := by
  have hw : writable 2 = true := by decide
  have hu : user 2 = false := by decide
  rw [← walk_allows_iff, hw, hu]
  simp

/-- A walk one of whose words becomes absent, when the others stay or become absent too, ends
nowhere. -/
theorem walk_absent {c : ℕ × ℕ} (hc : c ∈ footprint m v l t) (hn : present (m' c.1 c.2) = false)
    (hm : ∀ c ∈ footprint m v l t, m' c.1 c.2 = m c.1 c.2 ∨ present (m' c.1 c.2) = false) :
    walk m' v l t = none := by
  induction l generalizing t with
  | zero => simp [footprint] at hc
  | succ l ih =>
    have hsub : ∀ d ∈ footprint m v l (entryFrame (m t (index l v))),
        (present (m t (index l v)) && !endsHuge l (m t (index l v))) = true →
          d ∈ footprint m v (l + 1) t := by
      intro d hd hp
      rw [footprint, if_pos hp]
      exact List.mem_cons_of_mem _ hd
    rcases hm (t, index l v) (by simp [footprint]) with he | he
    · rcases mem_footprint_succ.1 hc with rfl | ⟨hp, hu, hc⟩
      · simp [walk, hn]
      · have hp' : (present (m t (index l v)) && !endsHuge l (m t (index l v))) = true := by simp [hp, hu]
        have := ih hc fun d hd => hm d (hsub d hd hp')
        simp [walk, he, hp, hu, this]
    · simp [walk, he]

/-- A word of the walk that is made absent. -/
theorem walk_set_absent {c : ℕ × ℕ} {w : UInt64} (hc : c ∈ footprint m v l t) (hw : present w = false) :
    walk (m.set c.1 c.2 w) v l t = none := by
  refine walk_absent hc (by rw [Ram.set_same, hw]) fun d _ => ?_
  by_cases hd : d = c
  · exact .inr (by rw [hd, Ram.set_same, hw])
  · exact .inl (m.set_of_ne w hd)

/-! ### Changing the rights only -/

/-- The two entries lead the walk the same way. -/
def SameWay (e e' : UInt64) : Prop :=
  present e' = present e ∧ huge e' = huge e ∧ entryFrame e' = entryFrame e

theorem SameWay.refl (e : UInt64) : SameWay e e := ⟨rfl, rfl, rfl⟩

/-- Nothing changes its way when one entry does not. -/
theorem sameWay_set {f i : ℕ} {w : UInt64} (h : SameWay (m f i) w) (g j : ℕ) :
    SameWay (m g j) (m.set f i w g j) := by
  by_cases hc : (g, j) = (f, i)
  · obtain ⟨rfl, rfl⟩ := Prod.mk.inj hc
    rw [Ram.set_same]
    exact h
  · rw [Ram.set_of_ne m w hc]
    exact .refl _

theorem footprint_sameWay (hm : ∀ f i, SameWay (m f i) (m' f i)) :
    footprint m' v l t = footprint m v l t := by
  induction l generalizing t with
  | zero => rfl
  | succ l ih =>
    obtain ⟨hp, hh, hf⟩ := hm t (index l v)
    simp [footprint, endsHuge, hp, hh, hf, ih]

theorem walk_sameWay (hm : ∀ f i, SameWay (m f i) (m' f i)) :
    (walk m' v l t).map Hit.frame = (walk m v l t).map Hit.frame := by
  induction l generalizing t with
  | zero => rfl
  | succ l ih =>
    obtain ⟨hp, hh, hf⟩ := hm t (index l v)
    have hu : endsHuge l (m' t (index l v)) = endsHuge l (m t (index l v)) := by
      simp [endsHuge, hh]
    have hframe : ∀ e : UInt64, (Hit.frame ∘ fun x => x.through e) = Hit.frame := fun _ => rfl
    simp only [walk, hp, hu, hf]
    cases present (m t (index l v)) with
    | false => rfl
    | true =>
      cases endsHuge l (m t (index l v)) with
      | true => simp [Hit.through, hugeFrame, hf]
      | false =>
        simp only [if_true, Bool.false_eq_true, if_false, Option.map_map, hframe]
        exact ih

/-! ### Trees -/

/-- The page of an address: the bits a walk looks at. Those above repeat the highest of them. -/
def page (v : UInt64) : ℕ := frameNo v % 2 ^ 36

/-- A page has one way through the tables. -/
theorem page_eq_iff {w : UInt64} : page v = page w ↔ ∀ l < 4, index l v = index l w := by
  have h₀ := index_eq (l := 0) (v := v) (by decide)
  have h₁ := index_eq (l := 1) (v := v) (by decide)
  have h₂ := index_eq (l := 2) (v := v) (by decide)
  have h₃ := index_eq (l := 3) (v := v) (by decide)
  have k₀ := index_eq (l := 0) (v := w) (by decide)
  have k₁ := index_eq (l := 1) (v := w) (by decide)
  have k₂ := index_eq (l := 2) (v := w) (by decide)
  have k₃ := index_eq (l := 3) (v := w) (by decide)
  simp only [Nat.reduceMul, Nat.reduceAdd, Nat.reducePow] at h₀ h₁ h₂ h₃ k₀ k₁ k₂ k₃
  constructor
  · intro h l hl
    rw [page, page, frameNo, frameNo] at h
    obtain rfl | rfl | rfl | rfl : l = 0 ∨ l = 1 ∨ l = 2 ∨ l = 3 := by omega
    all_goals omega
  · intro h
    have e₀ := h 0 (by decide)
    have e₁ := h 1 (by decide)
    have e₂ := h 2 (by decide)
    have e₃ := h 3 (by decide)
    rw [page, page, frameNo, frameNo]
    omega

/-- Addresses of one page lead to one place, whatever the bits above are. -/
theorem walk_same_page {w : UInt64} (hp : page w = page v) (hl : l ≤ 4) :
    walk m w l t = walk m v l t ∧ footprint m w l t = footprint m v l t := by
  induction l generalizing t with
  | zero => exact ⟨rfl, rfl⟩
  | succ l ih =>
    have hi : index l w = index l v := page_eq_iff.1 hp l (by omega)
    have hf : frameNo w % 2 ^ (9 * l) = frameNo v % 2 ^ (9 * l) := by
      have hdvd : 2 ^ (9 * l) ∣ 2 ^ 36 := Nat.pow_dvd_pow 2 (by omega)
      rw [← Nat.mod_mod_of_dvd (frameNo w) hdvd, ← Nat.mod_mod_of_dvd (frameNo v) hdvd]
      exact congrArg (· % 2 ^ (9 * l)) hp
    have ih := fun t => ih (t := t) (by omega)
    simp only [walk, footprint, hi, hugeFrame, hf, ih, and_self]

/-- Table `t` is reached from table `root` through the entries with these indices, the last one first. -/
inductive TableAt (m : Ram) (root : ℕ) : List ℕ → ℕ → Prop
  | root : TableAt m root [] root
  | entry {path : List ℕ} {t i : ℕ} : TableAt m root path t → path.length < 3 → i < 512 →
      present (m t i) = true → TableAt m root (i :: path) (entryFrame (m t i))

/-- **The tables are a tree**: no entry maps a huge page, and no two tables have one frame. -/
structure PageTree (m : Ram) (root : ℕ) : Prop where
  small : ∀ {path t i}, TableAt m root path t → path.length < 3 → i < 512 → present (m t i) = true →
    endsHuge (3 - path.length) (m t i) = false
  distinct : ∀ {path path' t}, TableAt m root path t → TableAt m root path' t → path = path'

/-- The way of an address to its table of level `l + 1`. -/
def pathTo (v : UInt64) (l : ℕ) : List ℕ := (List.range' (l + 1) (3 - l)).map (index · v)

theorem pathTo_succ (hl : l < 3) : pathTo v l = index (l + 1) v :: pathTo v (l + 1) := by
  rw [pathTo, pathTo, show 3 - l = 3 - (l + 1) + 1 by omega, List.range'_succ, List.map_cons]

section Way

variable {root : ℕ} {path : List ℕ}

/-- Any three indices are those of an address. -/
theorem exists_index {i j k : ℕ} (hi : i < 512) (hj : j < 512) (hk : k < 512) :
    ∃ v : UInt64, index 1 v = i ∧ index 2 v = j ∧ index 3 v = k := by
  have hv : (UInt64.ofNat (2 ^ 21 * i + 2 ^ 30 * j + 2 ^ 39 * k)).toNat = 2 ^ 21 * i + 2 ^ 30 * j + 2 ^ 39 * k := by
    rw [UInt64.toNat_ofNat', Nat.mod_eq_of_lt (by omega)]
  refine ⟨UInt64.ofNat (2 ^ 21 * i + 2 ^ 30 * j + 2 ^ 39 * k), ?_, ?_, ?_⟩
  all_goals
    rw [index_eq (by decide), hv]
    simp only [Nat.reduceMul, Nat.reduceAdd, Nat.reducePow]
    omega

theorem TableAt.length_le (h : TableAt m root path t) : path.length ≤ 3 ∧ ∀ i ∈ path, i < 512 := by
  induction h with
  | root => exact ⟨by decide, fun _ hi => by cases hi⟩
  | @entry path t i h hlen hi hp ih =>
    refine ⟨hlen, fun j hj => ?_⟩
    rcases List.mem_cons.1 hj with rfl | hj
    · exact hi
    · exact ih.2 j hj

/-- Each table is on the way of an address. -/
theorem TableAt.way (h : TableAt m root path t) : ∃ v, ∃ l ≤ 3, path = pathTo v l := by
  obtain ⟨hlen, hidx⟩ := h.length_le
  match path with
  | [] => exact ⟨0, 3, by decide, rfl⟩
  | [k] =>
    obtain ⟨v, -, -, rfl⟩ := exists_index (i := 0) (j := 0) (by decide) (by decide) (hidx k (by simp))
    exact ⟨v, 2, by decide, rfl⟩
  | [j, k] =>
    obtain ⟨v, -, rfl, rfl⟩ := exists_index (i := 0) (by decide) (hidx j (by simp)) (hidx k (by simp))
    exact ⟨v, 1, by decide, rfl⟩
  | [i, j, k] =>
    obtain ⟨v, rfl, rfl, rfl⟩ := exists_index (hidx i (by simp)) (hidx j (by simp)) (hidx k (by simp))
    exact ⟨v, 0, by decide, rfl⟩

theorem TableAt.of_root (h : TableAt m root [] t) : t = root := by
  cases h
  rfl

theorem TableAt.of_entry {i : ℕ} (h : TableAt m root (i :: path) t) :
    ∃ u, TableAt m root path u ∧ present (m u i) = true ∧ t = entryFrame (m u i) := by
  cases h with
  | entry hu _ _ hp => exact ⟨_, hu, hp, rfl⟩

end Way

/-- A word that a walk reads is in a table on the way of the address. -/
theorem table_of_word {root : ℕ} {c : ℕ × ℕ} (ht : TableAt m root (pathTo v l) t) (hl : l < 4)
    (hc : c ∈ footprint m v (l + 1) t) :
    ∃ k ≤ l, TableAt m root (pathTo v k) c.1 ∧ c.2 = index k v := by
  induction l generalizing t with
  | zero =>
    rcases mem_footprint_succ.1 hc with rfl | ⟨-, -, hc⟩
    · exact ⟨0, Nat.le_refl 0, ht, rfl⟩
    · cases hc
  | succ l ih =>
    rcases mem_footprint_succ.1 hc with rfl | ⟨hp, -, hc⟩
    · exact ⟨l + 1, Nat.le_refl _, ht, rfl⟩
    · have hlen : (pathTo v (l + 1)).length < 3 := by
        rw [pathTo, List.length_map, List.length_range']
        omega
      have hnext := ht.entry hlen index_lt hp
      rw [← pathTo_succ (by omega)] at hnext
      obtain ⟨k, hk, h⟩ := ih hnext (by omega) hc
      exact ⟨k, by omega, h⟩

/-- **In a tree, two pages have no leaf in common.** -/
theorem PageTree.leaf_apart {cr3 w : UInt64} (h : PageTree m (frameNo cr3))
    (ht : TableAt m (frameNo cr3) (pathTo v 0) t) (hw : (t, index 0 v) ∈ words m cr3 w) : page w = page v := by
  have hroot : TableAt m (frameNo cr3) (pathTo w 3) (frameNo cr3) := .root
  obtain ⟨k, hk, hat, hi⟩ := table_of_word hroot (by decide) hw
  have hpath := h.distinct hat ht
  have hlen := congrArg List.length hpath
  simp only [pathTo, List.length_map, List.length_range'] at hlen
  obtain rfl : k = 0 := by omega
  simp only [pathTo, List.range', List.map_cons, List.cons.injEq] at hpath
  refine page_eq_iff.2 fun l hl => ?_
  obtain rfl | rfl | rfl | rfl : l = 0 ∨ l = 1 ∨ l = 2 ∨ l = 3 := by omega
  · exact hi.symm
  · exact hpath.1
  · exact hpath.2.1
  · exact hpath.2.2.1

/-- The tables above the last ones are the same. -/
def SameTables (m m' : Ram) (root : ℕ) : Prop :=
  ∀ ⦃path t⦄, TableAt m root path t → path.length < 3 → m' t = m t

theorem SameTables.refl (m : Ram) (root : ℕ) : SameTables m m root := fun _ _ _ _ => rfl

/-- Then all of them are where they were. -/
theorem SameTables.tableAt_iff {root : ℕ} {path : List ℕ} (h : SameTables m m' root) :
    TableAt m' root path t ↔ TableAt m root path t := by
  constructor
  · intro ht
    induction ht with
    | root => exact .root
    | entry _ hlen hi hp ih =>
      rw [h ih hlen] at hp ⊢
      exact ih.entry hlen hi hp
  · intro ht
    induction ht with
    | root => exact .root
    | entry ht hlen hi hp ih =>
      rw [← h ht hlen] at hp ⊢
      exact ih.entry hlen hi hp

theorem SameTables.trans {m'' : Ram} {root : ℕ} (h : SameTables m m' root) (h' : SameTables m' m'' root) :
    SameTables m m'' root := fun _ _ ht hlen => (h' (h.tableAt_iff.2 ht) hlen).trans (h ht hlen)

/-- An entry of a last table is in no other. -/
theorem PageTree.sameTables_set {root : ℕ} {path : List ℕ} (h : PageTree m root) (ht : TableAt m root path t)
    (hl : path.length = 3) (i : ℕ) (w : UInt64) : SameTables m (m.set t i w) root := by
  intro p u hu hp
  funext j
  refine m.set_of_ne w fun he => ?_
  obtain ⟨rfl, -⟩ := Prod.mk.inj he
  rw [h.distinct hu ht] at hp
  omega

/-- The tables stay a tree. -/
theorem SameTables.tree {root : ℕ} (h : SameTables m m' root) (hT : PageTree m root) : PageTree m' root := by
  refine ⟨fun hu hp hi he => ?_, fun hu hv => hT.distinct (h.tableAt_iff.1 hu) (h.tableAt_iff.1 hv)⟩
  rw [h (h.tableAt_iff.1 hu) hp] at he ⊢
  exact hT.small (h.tableAt_iff.1 hu) hp hi he

/-- A tree stays one when an entry of a last table changes. -/
theorem PageTree.set_leaf {root : ℕ} {path : List ℕ} (h : PageTree m root) (ht : TableAt m root path t)
    (hl : path.length = 3) (i : ℕ) (w : UInt64) : PageTree (m.set t i w) root :=
  (h.sameTables_set ht hl i w).tree h

/-! ### Where a walk gets to -/

/-- The walk of `v` gets to table `t`, the entries of which lead to level `l`. -/
inductive WalkAt (m : Ram) (cr3 v : UInt64) : ℕ → ℕ → Prop
  | root : WalkAt m cr3 v 3 (frameNo cr3)
  | entry {l t : ℕ} : WalkAt m cr3 v (l + 1) t → present (m t (index (l + 1) v)) = true →
      endsHuge (l + 1) (m t (index (l + 1) v)) = false → WalkAt m cr3 v l (entryFrame (m t (index (l + 1) v)))

theorem WalkAt.level {cr3 : UInt64} (h : WalkAt m cr3 v l t) : l ≤ 3 := by
  induction h with
  | root => exact Nat.le_refl 3
  | entry _ _ _ ih => omega

theorem WalkAt.top {cr3 : UInt64} (h : WalkAt m cr3 v 3 t) : t = frameNo cr3 := by
  cases h with
  | root => rfl
  | entry h _ _ => exact absurd h.level (by decide)

/-- The table before. -/
theorem WalkAt.before {cr3 : UInt64} (h : WalkAt m cr3 v l t) (hl : l < 3) :
    ∃ u, WalkAt m cr3 v (l + 1) u ∧ present (m u (index (l + 1) v)) = true ∧
      endsHuge (l + 1) (m u (index (l + 1) v)) = false ∧ t = entryFrame (m u (index (l + 1) v)) := by
  cases h with
  | root => exact absurd hl (Nat.lt_irrefl 3)
  | entry h hp hu => exact ⟨_, h, hp, hu, rfl⟩

/-- **The words of a walk** are its entries in the tables that it gets to. -/
theorem mem_words_iff {cr3 : UInt64} {c : ℕ × ℕ} :
    c ∈ words m cr3 v ↔ ∃ l t, WalkAt m cr3 v l t ∧ c = (t, index l v) := by
  constructor
  · have key : ∀ {l t : ℕ}, WalkAt m cr3 v l t → c ∈ footprint m v (l + 1) t →
        ∃ k u, WalkAt m cr3 v k u ∧ c = (u, index k v) := by
      intro l
      induction l with
      | zero =>
        intro t ht hc
        rcases mem_footprint_succ.1 hc with rfl | ⟨-, -, hc⟩
        · exact ⟨0, t, ht, rfl⟩
        · cases hc
      | succ l ih =>
        intro t ht hc
        rcases mem_footprint_succ.1 hc with rfl | ⟨hp, hu, hc⟩
        · exact ⟨l + 1, t, ht, rfl⟩
        · exact ih (ht.entry hp hu) hc
    exact key .root
  · rintro ⟨l, t, ht, rfl⟩
    have key : ∀ c ∈ footprint m v (l + 1) t, c ∈ words m cr3 v := by
      induction ht with
      | root => exact fun c hc => hc
      | entry _ hp hu ih => exact fun c hc => ih c (mem_footprint_succ.2 (.inr ⟨hp, hu, hc⟩))
    exact key _ (mem_footprint_succ.2 (.inl rfl))

/-- **The tables that walks get to are a tree**: no two of them have one frame. -/
def WalkTree (m : Ram) (cr3 : UInt64) : Prop :=
  ∀ ⦃v w : UInt64⦄ ⦃k j t : ℕ⦄, WalkAt m cr3 v k t → WalkAt m cr3 w j t →
    k = j ∧ ∀ l, k < l → l < 4 → index l v = index l w

/-- In such a tree, too, two pages have no leaf in common. -/
theorem WalkTree.leaf_apart {cr3 w : UInt64} (h : WalkTree m cr3) (ht : WalkAt m cr3 v 0 t)
    (hw : (t, index 0 v) ∈ words m cr3 w) : page w = page v := by
  obtain ⟨k, u, hu, he⟩ := mem_words_iff.1 hw
  obtain ⟨rfl, hi⟩ := Prod.mk.inj he
  obtain ⟨rfl, hpath⟩ := h ht hu
  refine page_eq_iff.2 fun l hl => ?_
  cases l with
  | zero => exact hi.symm
  | succ l => exact (hpath (l + 1) (Nat.succ_pos l) hl).symm

/-- A tree without huge pages is one. -/
theorem PageTree.walkTree {cr3 : UInt64} (h : PageTree m (frameNo cr3)) : WalkTree m cr3 := by
  have hat : ∀ {v : UInt64} {l t : ℕ}, WalkAt m cr3 v l t → l < 4 ∧ TableAt m (frameNo cr3) (pathTo v l) t := by
    intro v l t ht
    induction ht with
    | root => exact ⟨by decide, .root⟩
    | @entry l t _ hp _ ih =>
      obtain ⟨hl, ht⟩ := ih
      rw [pathTo_succ (by omega)]
      exact ⟨by omega, ht.entry (by rw [pathTo, List.length_map, List.length_range']; omega) index_lt hp⟩
  intro v w k j t hv hw
  obtain ⟨hk, hv⟩ := hat hv
  obtain ⟨hj, hw⟩ := hat hw
  have hpath := h.distinct hv hw
  have hlen := congrArg List.length hpath
  simp only [pathTo, List.length_map, List.length_range'] at hlen
  obtain rfl : k = j := by omega
  refine ⟨rfl, fun l hkl hl => ?_⟩
  exact List.map_inj_left.1 hpath l (List.mem_range'_1.2 ⟨hkl, by omega⟩)

/-- The entries that walks go through above the last tables are the same. -/
def SameWays (m m' : Ram) (cr3 : UInt64) : Prop :=
  ∀ ⦃v : UInt64⦄ ⦃l t : ℕ⦄, WalkAt m cr3 v (l + 1) t → m' t (index (l + 1) v) = m t (index (l + 1) v)

theorem SameWays.refl (m : Ram) (cr3 : UInt64) : SameWays m m cr3 := fun _ _ _ _ => rfl

/-- Then walks get to the same tables. -/
theorem SameWays.walkAt_iff {cr3 : UInt64} (h : SameWays m m' cr3) : WalkAt m' cr3 v l t ↔ WalkAt m cr3 v l t := by
  constructor
  · intro ht
    induction ht with
    | root => exact .root
    | entry _ hp hu ih =>
      rw [h ih] at hp hu ⊢
      exact ih.entry hp hu
  · intro ht
    induction ht with
    | root => exact .root
    | entry ht hp hu ih =>
      rw [← h ht] at hp hu ⊢
      exact ih.entry hp hu

theorem SameWays.trans {m'' : Ram} {cr3 : UInt64} (h : SameWays m m' cr3) (h' : SameWays m' m'' cr3) :
    SameWays m m'' cr3 := fun _ _ _ ht => (h' (h.walkAt_iff.2 ht)).trans (h ht)

theorem SameWays.walkTree {cr3 : UInt64} (h : SameWays m m' cr3) (hT : WalkTree m cr3) : WalkTree m' cr3 :=
  fun _ _ _ _ _ hv hw => hT (h.walkAt_iff.1 hv) (h.walkAt_iff.1 hw)

/-- An entry of a last table is on no way. -/
theorem WalkTree.sameWays_set {cr3 : UInt64} (hT : WalkTree m cr3) (ht : WalkAt m cr3 v 0 t) (w : UInt64) :
    SameWays m (m.set t (index 0 v) w) cr3 := by
  intro u l t' ht'
  refine m.set_of_ne w fun he => ?_
  obtain ⟨rfl, -⟩ := Prod.mk.inj he
  exact absurd (hT ht ht').1 (Nat.succ_ne_zero l).symm

end Lib.Paging
