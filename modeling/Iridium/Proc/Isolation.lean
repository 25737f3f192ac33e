import Iridium.Mm.Loading
import Iridium.Proc.Step

/-!
# What processes share

`_spawn` gives a process its own top-level table (`mkpml4`), a copy of the one in use. The tables below
it are not copied: at first the new space translates every address as the old one does
(`mkpml4_translate`), and the two have all their leaves in common. So a page mapped and loaded for one
process may be a page of another (`isolated_iff`), as the stack of the first process is
(`not_isolated`). The programs count on spaces of their own: `gfxd` and `shell` are linked at the same
address (`programs/sys/gfxd/link.ld`, `programs/sys/shell/link.ld`).
-/

namespace Iridium

open Lib.Paging

/-- A page is given at an address that a table can name. -/
theorem vmm_alloc_page_masked {s s' : Vm} {a : UInt64} (h : vmm_alloc_page s = .ok (a, s')) :
    a &&& PAGE_ADDR_MASK = a := by
  obtain ⟨⟨frame, pmm⟩, -, h⟩ := bind_ok.1 h
  dsimp only at h
  split at h
  · obtain ⟨rfl, -⟩ := Prod.mk.inj (pure_ok.1 h)
    rfl
  · obtain ⟨t, -, h⟩ := bind_ok.1 h
    obtain ⟨rfl, -⟩ := Prod.mk.inj (pure_ok.1 h)
    rw [UInt64.and_assoc, UInt64.and_self]

/-- **A new space is the old one**: it translates every address alike. -/
theorem mkpml4_translate {s s' : Vm} {a v : UInt64} (h : mkpml4 s = .ok (a, s')) :
    translate s'.ram a v = translate s'.ram s'.cr3 v := by
  obtain ⟨⟨new_pml, t⟩, ht, h⟩ := bind_ok.1 h
  obtain ⟨rfl, rfl⟩ := Prod.mk.inj (pure_ok.1 h)
  have hcopy : t.ram.setFrame (frameNo new_pml) (t.ram (frameNo t.cr3)) (frameNo new_pml) =
      t.ram (frameNo t.cr3) := Ram.setFrame_same _ _ _
  rw [vmm_alloc_page_masked ht]
  refine walk_same_entries (hcopy.trans ?_)
  -- the source has its entries still, also when it is the new table itself
  by_cases hf : frameNo t.cr3 = frameNo new_pml
  · rw [hf] at hcopy ⊢
    exact hcopy.symm
  · exact (t.ram.setFrame_of_ne _ hf).symm

/-- The process `p` is a signal handler of `q`. -/
def HandlerOf (k : Kernel) (p q : ℕ) : Prop := (k.procs p).isHandler = true ∧ (k.procs p).parent = q

instance (k : Kernel) (p q : ℕ) : Decidable (HandlerOf k p q) := inferInstanceAs (Decidable (_ ∧ _))

/-- **Mapping page `v` in the space of process `b`**, and writing a program there, changes no
page of process `a`. -/
def Isolated (k : Kernel) (a b : ℕ) (v : UInt64) : Prop :=
  ∀ o bytes s', o + bytes.length ≤ 4096 → load_page k.mm.vm (k.procs b).cr3 v o bytes = .ok s' →
    ∀ w h, UserPage k.mm.vm.ram (k.procs a).cr3 w h → Unchanged k.mm.vm.ram s'.ram (k.procs a).cr3 w h

/-- Page `v` of process `b` has nothing in common with a page of process `a`, if it can be mapped
at all. -/
def Apart (k : Kernel) (a b : ℕ) (v : UInt64) : Prop :=
  Mappable k.mm.vm (k.procs b).cr3 v → ∀ w h, UserPage k.mm.vm.ram (k.procs a).cr3 w h →
    Spares k.mm.vm (k.procs b).cr3 v (k.procs a).cr3 w h

/-- **Isolation**: the pages of a process stay as they are when a page is mapped and loaded for
another, exactly when that page is apart from all of them. -/
theorem isolated_iff (k : Kernel) (a b : ℕ) (v : UInt64) : Isolated k a b v ↔ Apart k a b v := by
  constructor
  · intro hi hm w h hw
    refine (loaded_unchanged_iff hm hw).1 fun o bytes s' hb hs' => ?_
    exact hi o bytes s' hb hs' w h hw
  · intro ha o bytes s' hb hs' w h hw
    obtain ⟨hm, -⟩ := load_page_ok hs'
    exact (loaded_unchanged_iff hm hw).2 (ha hm w h hw) o bytes s' hb hs'

/-- The first process spawns another. A page that is mapped in the space of the new one and
written there is the stack of the first. -/
theorem not_isolated : ¬∀ k, Reachable k → ∀ a b, k.Live a → k.Live b → a ≠ b → ¬HandlerOf k a b →
    ¬HandlerOf k b a → ∀ v, Isolated k a b v := by
  obtain ⟨es, k, h, hn⟩ := traces_true Always
    (fun k => decide (k.Live k.queue_base ∧ k.Live k.queue_head ∧ k.queue_base ≠ k.queue_head ∧
        ¬HandlerOf k k.queue_base k.queue_head ∧ ¬HandlerOf k k.queue_head k.queue_base) &&
      answers (load_page k.mm.vm k.head.cr3 ((k.procs k.queue_base).context PCTX_RSP) 0 [1]) fun s' =>
        (translate k.mm.vm.ram (k.procs k.queue_base).cr3 ((k.procs k.queue_base).context PCTX_RSP)).any
          fun h => h.user && s'.ram h.frame 0 != k.mm.vm.ram h.frame 0)
    [.initrd_spawn [65] 0 1] (by decide +kernel)
  intro hall
  rw [Bool.and_eq_true, decide_eq_true_eq] at hn
  obtain ⟨⟨ha, hb, hne, hab, hba⟩, hn⟩ := hn
  obtain ⟨s', hs', hn⟩ := answers_iff.1 hn
  obtain ⟨hit, hw, hn⟩ := (Option.any_eq_true _ _).1 hn
  rw [Bool.and_eq_true, bne_iff_ne] at hn
  have hun := hall k ⟨es, h⟩ _ _ ha hb hne hab hba _ 0 [1] s' (by decide) hs' _ hit ⟨hw, hn.1⟩
  exact hn.2 (congrFun hun.2 0)

end Iridium
