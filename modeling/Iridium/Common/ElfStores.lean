import Iridium.Mm.Space

/-!
# Stores that spare the loader

The loader stores where the file says. `Space.Clear` says that these addresses lie on no table and on no
buffer of the loader: then its loops read the buffers as they were before, and do what loops from fixed
buffers do (`elf_load_all_follows`).
-/

namespace Iridium

open Lib.Paging

namespace Space

variable {S : Space} {s s' : Vm} {D : Set UInt64} {B : Set ℕ}

/-- The space, with one address of the program. -/
def only (S : Space) (a : UInt64) : Space := { S with program := {a} }

theorem Own.only (h : S.Own s) {a : UInt64} (ha : a ∈ S.program) : (S.only a).Own s := by
  have hmem : ∀ b ∈ (S.only a).program, b ∈ S.program := by
    rintro b rfl
    exact ha
  have htree : (S.only a).Tree s.ram := by
    obtain ⟨top, pdpt, pdt, page_tbl, apart, leaves⟩ := h.tree
    exact ⟨top, pdpt, pdt, page_tbl, apart, fun b hb c hc => leaves b (hmem b hb) c (hmem c hc)⟩
  refine ⟨h.cr3, htree, fun b hb c hc => h.frames b (hmem b hb) c (hmem c hc), fun b hb => h.apart b (hmem b hb),
    fun i hi => ?_⟩
  obtain ⟨hlt, hup, htab, hker, hprog⟩ := h.free i hi
  exact ⟨hlt, hup, htab, hker, fun b hb => hprog b (hmem b hb)⟩

/-- The buffers lie on frames of the kernel. -/
def Holds (S : Space) (B : Set ℕ) (m : Ram) : Prop :=
  ∀ p ∈ B, ∃ f ∈ S.kernel, Iridium.frame_at m S.cr3 (UInt64.ofNat p) = some f

/-- **Stores to the addresses `D` spare the buffers `B`**: each of them lies on no table and on no data of the
kernel, the buffers being such data, and stays so when pages get frames that are free. -/
def Clear (S : Space) (D : Set UInt64) (B : Set ℕ) (s : Vm) : Prop :=
  ∀ a ∈ D, (S.only a).Own s ∧ S.Holds B s.ram

theorem Clear.mono {D' : Set UInt64} {B' : Set ℕ} (h : S.Clear D B s) (hD : ∀ a ∈ D', a ∈ D) (hB : ∀ p ∈ B', p ∈ B) :
    S.Clear D' B' s :=
  fun a ha => ⟨(h a (hD a ha)).1, fun p hp => (h a (hD a ha)).2 p (hB p hp)⟩

theorem Own.clear (h : S.Own s) (hB : S.Holds B s.ram) : S.Clear S.program B s := fun _ ha => ⟨h.only ha, hB⟩

/-- Buffers stay where they are when bytes are put elsewhere. -/
theorem Holds.loads {w : UInt64 → Option UInt8} (h : S.Holds B s.ram) (hl : S.Loads w s s') : S.Holds B s'.ram := by
  intro p hp
  obtain ⟨f, hk, hfp⟩ := h p hp
  exact ⟨f, hk, hl.keeps _ f hfp⟩

theorem Holds.alike {t : Vm} (h : S.Holds B s.ram) (ht : S.Tree s.ram) (hst : S.Alike s t) : S.Holds B t.ram := by
  intro p hp
  obtain ⟨f, hk, hfp⟩ := h p hp
  exact ⟨f, hk, (ht.frame_at_congr hst.tables _).trans hfp⟩

/-- So they do when a page is mapped. -/
theorem Holds.map {flags : UInt32} {v : UInt64} (h : S.Holds B s.ram) (ht : S.Tree s.ram) (hf : Leafs flags)
    (hm : vmm_map_page s S.cr3 v flags = .ok s') : S.Holds B s'.ram := by
  intro p hp
  obtain ⟨f, hk, hfp⟩ := h p hp
  refine ⟨f, hk, ?_⟩
  obtain ⟨-, -, ⟨-, hframe⟩ | ⟨c, g, -, hframe, hnone⟩⟩ := ht.map hf hm
  · rw [hframe, hfp]
  · rw [hframe, if_neg, hfp]
    intro hs
    rw [hnone _ hs] at hfp
    cases hfp

theorem Clear.map {flags : UInt32} {v : UInt64} (h : S.Clear D B s) (hf : Leafs flags) (hfed : s.pmm.feeds 1 = true)
    (hm : vmm_map_page s S.cr3 v flags = .ok s') : S.Clear D B s' := by
  intro a ha
  obtain ⟨hown, hB⟩ := h a ha
  exact ⟨hown.map hf hfed hm, Holds.map (S := S.only a) hB hown.tree hf hm⟩

end Space

/-- Memory after stores of the loader that have spared the buffers `B`. -/
structure Spared (B : Set ℕ) (m m' : Mm) : Prop where
  heap : m'.heap = m.heap
  module : m'.module = m.module
  initrd : m'.initrd = m.initrd
  bytes : ∀ p ∈ B, m'.bytes p = m.bytes p

section Spared

variable {S : Space} {D : Set UInt64} {B : Set ℕ} {m m' m'' : Mm}

@[refl] theorem Spared.refl (m : Mm) : Spared B m m := ⟨rfl, rfl, rfl, fun _ _ => rfl⟩

theorem Spared.of_vm (m : Mm) (vm : Vm) : Spared B m { m with vm } := ⟨rfl, rfl, rfl, fun _ _ => rfl⟩

theorem Spared.trans (h : Spared B m m') (h' : Spared B m' m'') : Spared B m m'' :=
  ⟨h'.heap.trans h.heap, h'.module.trans h.module, h'.initrd.trans h.initrd,
    fun p hp => (h'.bytes p hp).trans (h.bytes p hp)⟩

/-- A program header in the buffers. -/
theorem Spared.phdr (h : Spared B m m') {phdr : ℕ} (hB : ∀ j < 48, phdr + j ∈ B) :
    read_phdr m'.bytes phdr = read_phdr m.bytes phdr :=
  read_phdr_congr fun j hj => h.bytes _ (hB j hj)

/-- **A store to one of the addresses** spares the buffers, and all tables. -/
theorem Space.Clear.store8 {a : UInt64} {b : UInt8} (h : S.Clear D B m.vm) (ha : a ∈ D)
    (hm : m.store8 a b = .ok m') :
    S.Clear D B m'.vm ∧ Spared B m m' ∧ m'.vm.pmm = m.vm.pmm ∧
      ∀ f, f ∈ S.upper ∨ f ∈ S.page_tbls → m'.vm.ram f = m.vm.ram f := by
  obtain ⟨vm, hvm, hm⟩ := bind_ok.1 hm
  obtain rfl := pure_ok.1 hm
  obtain ⟨f, hfa, rfl⟩ := write8_ok.1 hvm
  obtain ⟨hown, hB⟩ := h a ha
  have hcr3 : m.vm.cr3 = S.cr3 := hown.cr3
  rw [hcr3] at hfa
  obtain ⟨hup, htab, hker⟩ := hown.apart a rfl f hfa
  have hother := tables_putByte (S := S.only a) (o := a.toNat % 4096) hup htab m.vm.ram b
  have hframe := hown.tree.frame_at_congr hother
  refine ⟨fun c hc => ⟨?_, fun p hp => ?_⟩, ⟨rfl, rfl, rfl, fun p hp => ?_⟩, rfl, hother⟩
  · obtain ⟨hown', -⟩ := h c hc
    exact hown'.congr rfl rfl (fun g hg => hother g (.inl hg)) hframe
  · obtain ⟨g, hg, hgp⟩ := hB p hp
    exact ⟨g, hg, (hframe _).trans hgp⟩
  · refine if_neg fun ⟨_, hsame⟩ => ?_
    obtain ⟨g, hg, hgp⟩ := hB p hp
    have heq := same_byte_frame hsame
    rw [hcr3, hfa, hgp] at heq
    exact hker (Option.some.inj heq ▸ hg)

end Spared

/-! ### The loop that maps -/

/-- Where the loop that maps a segment ends. -/
def Elf64_Phdr.map_end (g : Elf64_Phdr) : UInt64 :=
  (g.p_paddr + (g.p_memsz + 0x1000 - 1).toUInt32.toInt32.toInt64.toUInt64) * 2

/-- How many pages a loop maps that begins at `i`. -/
def map_turns (i stop : UInt64) : ℕ := (stop.toNat - i.toNat + 0xfff) / 0x1000

section Map

variable {S : Space} {D : Set UInt64} {B : Set ℕ} {cr3 stop i : UInt64} {s s' : Vm} {fuel k : ℕ}

/-- A loop whose end is above every address that it gets to does not return. -/
theorem elf_map_never (hstop : 2 ^ 64 - 0x1000 + i.toNat % 0x1000 < stop.toNat) : elf_map cr3 stop fuel s i ≠ .ok s' := by
  induction fuel generalizing s i with
  | zero =>
    intro h
    cases h
  | succ fuel ih =>
    have hlt := i.toNat_lt
    rw [elf_map, if_pos (UInt64.lt_iff_toNat_lt.2 (by omega))]
    intro h
    obtain ⟨t, -, h⟩ := bind_ok.1 h
    refine ih ?_ h
    rw [UInt64.toNat_add, show (0x1000 : UInt64).toNat = 0x1000 from rfl]
    omega

/-- Where the next turn begins, when the loop returns. -/
theorem map_next (hstop : stop.toNat ≤ 2 ^ 64 - 0x1000 + i.toNat % 0x1000) (hi : i < stop) :
    (i + 0x1000).toNat = i.toNat + 0x1000 ∧ map_turns i stop = 1 + map_turns (i + 0x1000) stop := by
  have hlt := i.toNat_lt
  rw [UInt64.lt_iff_toNat_lt] at hi
  have hnext : (i + 0x1000).toNat = i.toNat + 0x1000 := by
    rw [UInt64.toNat_add, show (0x1000 : UInt64).toNat = 0x1000 from rfl, Nat.mod_eq_of_lt (by omega)]
  refine ⟨hnext, ?_⟩
  rw [map_turns, map_turns, hnext]
  omega

/-- **The loop that maps a segment** keeps stores clear when there is a frame for each page. -/
theorem elf_map_clear (h : elf_map S.cr3 stop fuel s i = .ok s') (hc : S.Clear D B s)
    (hfed : s.pmm.feeds (map_turns i stop + k) = true) : S.Clear D B s' ∧ s'.pmm.feeds k = true := by
  have hstop : stop.toNat ≤ 2 ^ 64 - 0x1000 + i.toNat % 0x1000 := Nat.not_lt.1 fun hlt => elf_map_never hlt h
  induction fuel generalizing s i with
  | zero => cases h
  | succ fuel ih =>
    unfold elf_map at h
    split at h
    next hi =>
      obtain ⟨t, ht, h⟩ := bind_ok.1 h
      obtain ⟨hnext, hturns⟩ := map_next hstop hi
      rw [hturns, Nat.add_assoc] at hfed
      refine ih h (hc.map Space.leafs_user (Pmm.feeds_mono hfed (Nat.le_add_right 1 _)) ht) (map_feeds hfed ht) ?_
      rw [hnext]
      omega
    next =>
      obtain rfl := Except.ok.inj h
      exact ⟨hc, Pmm.feeds_mono hfed (Nat.le_add_left k _)⟩

end Map

/-! ### The loops that copy -/

section Copy

variable {S : Space} {D : Set UInt64} {B : Set ℕ} {m m' : Mm} {phdr src file fuel : ℕ} {segment i : UInt64}

/-- **The loop that copies a segment** spares the buffers. -/
theorem elf_copy_spares (hc : S.Clear D B m.vm) (hhdr : ∀ j < 48, phdr + j ∈ B)
    (hdst : ∀ j < (read_phdr m.bytes phdr).p_filesz.toNat, segment + UInt64.ofNat j ∈ D)
    (h : elf_copy phdr src segment fuel m i = .ok m') :
    S.Clear D B m'.vm ∧ Spared B m m' ∧ m'.vm.pmm = m.vm.pmm ∧
      ∀ f, f ∈ S.upper ∨ f ∈ S.page_tbls → m'.vm.ram f = m.vm.ram f := by
  induction fuel generalizing m i with
  | zero => cases h
  | succ fuel ih =>
    unfold elf_copy at h
    split at h
    next hi =>
      obtain ⟨t, ht, h⟩ := bind_ok.1 h
      have ha : segment + i ∈ D := by
        have hmem := hdst i.toNat (UInt64.lt_iff_toNat_lt.1 hi)
        rwa [UInt64.ofNat_toNat] at hmem
      obtain ⟨hct, hst, hpt, htab⟩ := hc.store8 ha ht
      obtain ⟨hc', hs', hp', htab'⟩ := ih hct (by rw [hst.phdr hhdr]; exact hdst) h
      exact ⟨hc', hst.trans hs', hp'.trans hpt, fun f hf => (htab' f hf).trans (htab f hf)⟩
    next =>
      obtain rfl := Except.ok.inj h
      exact ⟨hc, .refl _, rfl, fun _ _ => rfl⟩

/-- **One segment.** -/
theorem elf_load_spares {k : ℕ} (hc : S.Clear D B m.vm) (hhdr : ∀ j < 48, phdr + j ∈ B)
    (hfed : m.vm.pmm.feeds (map_turns (read_phdr m.bytes phdr).p_paddr (read_phdr m.bytes phdr).map_end + k) = true)
    (hdst : ∀ j < (read_phdr m.bytes phdr).p_filesz.toNat, (read_phdr m.bytes phdr).p_paddr + UInt64.ofNat j ∈ D)
    (h : elf_load file S.cr3 m phdr = .ok m') :
    S.Clear D B m'.vm ∧ Spared B m m' ∧ m'.vm.pmm.feeds k = true := by
  obtain ⟨vm, hvm, h⟩ := bind_ok.1 h
  obtain ⟨hcv, hfv⟩ := elf_map_clear hvm hc hfed
  obtain ⟨hc', hs', hp', -⟩ := elf_copy_spares (m := { m with vm }) hcv hhdr hdst h
  exact ⟨hc', (Spared.of_vm m vm).trans hs', by rw [hp']; exact hfv⟩

end Copy

/-! ### Loops from fixed buffers -/

/-- The loop that maps a segment and the loop that copies it, from buffers that stay as they are. -/
def load_from (mem : ℕ → UInt8) (file : ℕ) (cr3 : UInt64) (s : Vm) (phdr : Elf64_Phdr) : Kern Vm := do
  let s ← elf_map cr3 phdr.map_end (2 ^ 52) s phdr.p_paddr
  copy_from mem phdr.p_filesz.toNat s phdr.p_paddr (file + phdr.p_offset.toNat)

/-- The loop over the program headers. -/
def load_all_from (mem : ℕ → UInt8) (file : ℕ) (cr3 : UInt64) (phentsize : ℕ) : ℕ → Vm → ℕ → Kern Vm
  | 0, s, _ => .ok s
  | n + 1, s, phdr => do
    let h := read_phdr mem phdr
    let s ← if h.p_type = PT_LOAD then load_from mem file cr3 s h else .ok s
    load_all_from mem file cr3 phentsize n s (phdr + phentsize)

/-- **The loader does with memory what such a loop does**, and spares the buffers. -/
inductive Follows (B : Set ℕ) (m : Mm) : Kern Mm → Kern Vm → Prop where
  | error (e : Halt) : Follows B m (.error e) (.error e)
  | ok {m' : Mm} (h : Spared B m m') : Follows B m (.ok m') (.ok m'.vm)

section Follows

variable {S : Space} {D : Set UInt64} {B : Set ℕ} {m m' : Mm}

theorem Follows.of_spared {x : Kern Mm} {y : Kern Vm} (h : Follows B m' x y) (hs : Spared B m m') : Follows B m x y := by
  cases h with
  | error e => exact .error e
  | ok h => exact .ok (hs.trans h)

/-- One part after the other. -/
theorem Follows.bind {x : Kern Mm} {y : Kern Vm} {f : Mm → Kern Mm} {g : Vm → Kern Vm} (h : Follows B m x y)
    (hf : ∀ n, x = .ok n → Spared B m n → Follows B n (f n) (g n.vm)) : Follows B m (x >>= f) (y >>= g) := by
  cases h with
  | error e => exact .error e
  | ok h => exact (hf _ rfl h).of_spared h

theorem copy_from_congr {mem mem' : ℕ → UInt8} {n src : ℕ} {s : Vm} {dst : UInt64}
    (h : ∀ j < n, mem (src + j) = mem' (src + j)) : copy_from mem n s dst src = copy_from mem' n s dst src := by
  induction n generalizing s dst src with
  | zero => rfl
  | succ n ih =>
    have h0 : mem src = mem' src := h 0 (Nat.succ_pos n)
    rw [copy_from, copy_from, h0]
    refine congrArg _ (funext fun t => ih fun j hj => ?_)
    rw [Nat.add_assoc, Nat.add_comm 1]
    exact h (j + 1) (by omega)

theorem load_from_congr {mem mem' : ℕ → UInt8} {file : ℕ} {cr3 : UInt64} {s : Vm} {g : Elf64_Phdr}
    (h : ∀ j < g.p_filesz.toNat, mem (file + g.p_offset.toNat + j) = mem' (file + g.p_offset.toNat + j)) :
    load_from mem file cr3 s g = load_from mem' file cr3 s g := by
  simp only [load_from, copy_from_congr h]

/-- **The loop that copies a segment** reads a header and data that it does not change. -/
theorem elf_copy_follows {phdr src fuel n : ℕ} {segment i : UInt64} (hc : S.Clear D B m.vm)
    (hhdr : ∀ j < 48, phdr + j ∈ B) (hsize : (read_phdr m.bytes phdr).p_filesz.toNat = i.toNat + n) (hfuel : n < fuel)
    (hdst : ∀ j < n, segment + i + UInt64.ofNat j ∈ D) (hsrc : ∀ j < n, src + i.toNat + j ∈ B) :
    Follows B m (elf_copy phdr src segment fuel m i) (copy_from m.bytes n m.vm (segment + i) (src + i.toNat)) := by
  induction n generalizing m i fuel with
  | zero =>
    obtain ⟨fuel, rfl⟩ : ∃ k, fuel = k + 1 := ⟨fuel - 1, by omega⟩
    rw [elf_copy, if_neg (by rw [UInt64.lt_iff_toNat_lt]; omega)]
    exact .ok (.refl m)
  | succ n ih =>
    obtain ⟨fuel, rfl⟩ : ∃ k, fuel = k + 1 := ⟨fuel - 1, by omega⟩
    have hlt := (read_phdr m.bytes phdr).p_filesz.toNat_lt
    have hi : (i + 1).toNat = i.toNat + 1 := by
      rw [UInt64.toNat_add, UInt64.toNat_one, Nat.mod_eq_of_lt (by omega)]
    have ha : segment + i ∈ D := by
      have h0 : segment + i + 0 ∈ D := hdst 0 (Nat.succ_pos n)
      rwa [UInt64.add_zero] at h0
    rw [elf_copy, if_pos (by rw [UInt64.lt_iff_toNat_lt]; omega), copy_from, Mm.store8]
    cases hw : write8 m.vm (segment + i) (m.bytes (src + i.toNat)) with
    | error e => exact .error e
    | ok vm =>
      obtain ⟨t, ht⟩ : ∃ t, m.store8 (segment + i) (m.bytes (src + i.toNat)) = .ok t := by
        rw [Mm.store8, hw]
        exact ⟨_, rfl⟩
      obtain ⟨hct, hst, -⟩ := hc.store8 ha ht
      rw [Mm.store8, hw] at ht
      obtain rfl := Except.ok.inj ht
      have hstep := ih (i := i + 1) hct (by rw [hst.phdr hhdr]; omega) (show n < fuel by omega) (fun j hj => ?_)
        fun j hj => ?_
      · refine Follows.of_spared (y := copy_from m.bytes n vm (segment + i + 1) (src + i.toNat + 1)) ?_ hst
        rw [hi, ← UInt64.add_assoc, copy_from_congr fun j hj => hst.bytes _ (by
          rw [Nat.add_assoc, Nat.add_assoc, Nat.add_comm 1, ← Nat.add_assoc]; exact hsrc (j + 1) (by omega))] at hstep
        exact hstep
      · have hnext := hdst (j + 1) (by omega)
        rw [UInt64.ofNat_add] at hnext
        rw [← UInt64.add_assoc segment, UInt64.add_assoc _ 1, UInt64.add_comm 1]
        exact hnext
      · rw [hi, Nat.add_assoc, Nat.add_assoc, Nat.add_comm 1, ← Nat.add_assoc]
        exact hsrc (j + 1) (by omega)

/-- **One segment.** -/
theorem elf_load_follows {phdr file k : ℕ} (hc : S.Clear D B m.vm) (hhdr : ∀ j < 48, phdr + j ∈ B)
    (hfed : m.vm.pmm.feeds (map_turns (read_phdr m.bytes phdr).p_paddr (read_phdr m.bytes phdr).map_end + k) = true)
    (hdst : ∀ j < (read_phdr m.bytes phdr).p_filesz.toNat, (read_phdr m.bytes phdr).p_paddr + UInt64.ofNat j ∈ D)
    (hsrc : ∀ j < (read_phdr m.bytes phdr).p_filesz.toNat, file + (read_phdr m.bytes phdr).p_offset.toNat + j ∈ B) :
    Follows B m (elf_load file S.cr3 m phdr) (load_from m.bytes file S.cr3 m.vm (read_phdr m.bytes phdr)) := by
  have hcopy : ∀ vm, S.Clear D B vm →
      Follows B m (elf_copy phdr (file + (read_phdr m.bytes phdr).p_offset.toNat) (read_phdr m.bytes phdr).p_paddr
        (2 ^ 64) { m with vm } 0) (copy_from m.bytes (read_phdr m.bytes phdr).p_filesz.toNat vm
          (read_phdr m.bytes phdr).p_paddr (file + (read_phdr m.bytes phdr).p_offset.toNat)) := by
    intro vm hcv
    have hdst₀ : ∀ j < (read_phdr m.bytes phdr).p_filesz.toNat,
        (read_phdr m.bytes phdr).p_paddr + 0 + UInt64.ofNat j ∈ D := by rwa [UInt64.add_zero]
    have hfollows := elf_copy_follows (m := { m with vm }) (i := 0) hcv hhdr (Nat.zero_add _).symm
      (UInt64.toNat_lt _) hdst₀ hsrc
    rw [UInt64.add_zero] at hfollows
    exact hfollows.of_spared (.of_vm m vm)
  rw [elf_load, load_from, ← Elf64_Phdr.map_end]
  cases hvm : elf_map S.cr3 (read_phdr m.bytes phdr).map_end (2 ^ 52) m.vm (read_phdr m.bytes phdr).p_paddr with
  | error e => exact .error e
  | ok vm => exact hcopy vm (elf_map_clear hvm hc hfed).1

end Follows

end Iridium
