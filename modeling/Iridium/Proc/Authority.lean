import Iridium.Proc.Hooked
import Iridium.Proc.Spared

/-!
# Where permissions come from

`Perm` says that one call of a process without `PPERM_PERM` gives nobody a permission. Here the whole history of a
process is followed back. Whatever permissions it has, there is a chain of spawns that leads from the first process
to it; each was asked for by the process before in the chain, and each that gave any permission by a holder of
`PPERM_PERM` (`entitled`).

All this is as long as no store of the loader or of a program goes to the descriptor of a process in the queue.
So the first process decides: if neither it nor a handler of its signals ever gives `PPERM_PERM` away, then nobody
else gets it, and every permission that another process has was given by the first one (`confined_to_first`).
-/

namespace Iridium

/-- A move, and the state that it is made in. -/
abbrev Moved := Kernel × Move

/-- **Why the process at `p` has the permissions `m`**, by what was done up to now. -/
inductive Entitled (b : ℕ) : List Moved → ℕ → PPERM_T → Prop where
  /-- The first process has them all. -/
  | first : Entitled b [] b PPERM_SUPER_ADMIN
  /-- What it was entitled to, it is entitled to. -/
  | later {es : List Moved} {e : Moved} {p : ℕ} {m : PPERM_T} : Entitled b es p m → Entitled b (es ++ [e]) p m
  /-- The process that ran had it spawned with these permissions: with none, or as a holder of `PPERM_PERM`. -/
  | loaded {es : List Moved} {k k' : Kernel} {ev : Event} {path : List UInt8} {m : PPERM_T} {uses_console : UInt8}
      {p : ℕ} : Moves k (.event ev) k' → ev.action k = some (.initrd_spawn path m uses_console) → ¬k.Live p →
      k'.Live p → (m ≠ 0 → k.current.holds PPERM_PERM = true) → Entitled b es k.current_task k.current.perm_mask →
      Entitled b (es ++ [(k, .event ev)]) p m
  /-- It handles the signals of a process with these permissions. -/
  | handles {es : List Moved} {k k' : Kernel} {ev : Event} {m : PPERM_T} {p : ℕ} : Moves k (.event ev) k' →
      ¬k.Live p → k'.Live p → Handles k k' p → Entitled b es (k'.procs p).parent m →
      Entitled b (es ++ [(k, .event ev)]) p m

/-- The process at `p` is the first one, or handles its signals. -/
def Kernel.First (k : Kernel) (p : ℕ) : Prop := p = k.queue_base ∨ p ∈ k.handlers k.queue_base

instance (k : Kernel) (p : ℕ) : Decidable (k.First p) :=
  inferInstanceAs (Decidable (p = k.queue_base ∨
    k.Live p ∧ (k.procs p).isHandler = true ∧ (k.procs p).parent = k.queue_base))

/-- The permissions that an action asks for. -/
def Action.asks : Action → PPERM_T
  | .initrd_spawn _ permissions _ => permissions
  | _ => 0

/-- The permissions that a move asks for. -/
def Move.asks (k : Kernel) : Move → PPERM_T
  | .event e => ((e.action k).map Action.asks).getD 0
  | .store _ _ => 0

/-- Neither the first process nor a handler of its signals gives `PPERM_PERM` away. -/
def KeepsPerm (k : Kernel) (m : Move) : Prop := k.First k.current_task → m.asks k &&& PPERM_PERM = 0

instance (k : Kernel) (m : Move) : Decidable (KeepsPerm k m) :=
  inferInstanceAs (Decidable (_ → _))

/-- **The first process decides**: it and the handlers of its signals alone hold `PPERM_PERM`, and of who else has a
permission there was a spawn in which they asked for just these. -/
structure Confined (es : List Moved) (k : Kernel) : Prop where
  holders : ∀ p, k.Live p → ((k.procs p).holds PPERM_PERM = true ↔ k.First p)
  given : ∀ p, k.Live p → (k.procs p).perm_mask ≠ 0 → k.First p ∨
    ∃ e ∈ es, e.1.First e.1.current_task ∧ e.2.asks e.1 = (k.procs p).perm_mask

section Authority

variable {k k' : Kernel} {a : Action} {o : UInt64} {b p : ℕ} {es : List Moved} {m : Move}

/-- Who asked for any permission held `PPERM_PERM`. -/
theorem Loaded.holds (h : Loaded k a k' p) (hm : (k'.procs p).perm_mask ≠ 0) :
    (k.procs k.current_task).holds PPERM_PERM = true := by
  have hg := h.granted
  rw [denied, bne_iff_ne.2 hm, Bool.true_and, Bool.not_eq_false'] at hg
  exact hg

/-- **One step**, for the right of every process. -/
theorem entitled_step (hw : k.WellFormed) (hs : k.Spaced) (hspares : m.Spares k)
    (h : ∀ p, k.Live p → Entitled b es p (k.procs p).perm_mask) (hM : Moves k m k') (hl : k'.Live p) :
    Entitled b (es ++ [(k, m)]) p (k'.procs p).perm_mask := by
  rcases hM.step hw hs hspares with hd | ⟨ev, a, o, bytes, rfl, ha, hS⟩
  · rw [hd.procs]
    exact (h p (hd.sameLinks.live.1 hl)).later
  have hw' := hw.sameData (k.sameData_refill bytes)
  have hE := hS.effect hw'
  by_cases hp : k.Live p
  · rw [(hw'.sameRole hE (hw'.le hp)).perm_mask]
    exact (h p hp).later
  rcases created hw' hE hp hl with hn | hn
  · obtain ⟨path, uses_console, rfl⟩ := hn.action
    exact .loaded hM ha hp hl hn.holds (h _ (hw.running (hS.1.runs rfl)))
  · rw [hn.perm_mask]
    exact .handles hM hp hl hn.of_refill (h _ hn.owner)

/-! ### Who is of the first process -/

theorem first_effect (hw : k.WellFormed) (hE : Effect k a o k') (hp : k.Live p) (hl : k'.Live p) :
    k'.First p ↔ k.First p := by
  have hrole := hw.sameRole hE (hw.le hp)
  unfold Kernel.First Kernel.handlers
  rw [queue_base_effect hE, Set.mem_ofPred_eq, Set.mem_ofPred_eq, hrole.isHandler, hrole.parent]
  simp [hp, hl]

/-- A process from a file is not. -/
theorem Loaded.not_first (hw : k.WellFormed) (hE : Effect k a o k') (h : Loaded k a k' p) : ¬k'.First p := by
  rintro (hb | hh)
  · have hle := hw.le hw.base_live
    have hfresh := h.fresh
    rw [queue_base_effect hE] at hb
    omega
  · exact absurd (h.not_handler ▸ hh.2.1) nofun

/-- A new handler is if the process is whose signals it handles. -/
theorem Handles.first_iff (hw : k.WellFormed) (hlock : HandlersLocked k') (hE : Effect k a o k')
    (h : Handles k k' p) (hl : k'.Live p) : k'.First p ↔ k.First (k'.procs p).parent := by
  have hnot : (k.procs (k'.procs p).parent).isHandler = false := by
    rw [← (hw.sameRole hE (hw.le h.owner)).isHandler]
    exact (hlock.parent p hl h.handler).2
  have hfirst : k.First (k'.procs p).parent ↔ (k'.procs p).parent = k.queue_base :=
    or_iff_left fun hm => absurd hm.2.1 (by rw [hnot]; nofun)
  have hne : p ≠ k.queue_base := fun hb => by
    have hle := hw.le hw.base_live
    have hfresh := h.fresh
    omega
  rw [hfirst, Kernel.First, queue_base_effect hE, or_iff_right hne]
  exact ⟨fun hm => hm.2.2, fun hm => ⟨hl, h.handler, hm⟩⟩

/-! ### Confinement -/

theorem Confined.later (h : Confined es k) (e : Moved) : Confined (es ++ [e]) k :=
  ⟨h.holders, fun p hl hm => (h.given p hl hm).imp_right fun ⟨e, he, hf⟩ => ⟨e, List.mem_append_left _ he, hf⟩⟩

/-- **An action** that does not give `PPERM_PERM` away, and has its entry. -/
theorem Confined.acts (hw : k.WellFormed) (hlock : HandlersLocked k) (h : Confined es k) (hS : Step k (a, o) k')
    (hC : k.First k.current_task → a.asks &&& PPERM_PERM = 0)
    (hasks : k.First k.current_task → ∃ e ∈ es, e.1.First e.1.current_task ∧ e.2.asks e.1 = a.asks) :
    Confined es k' := by
  have hE := hS.effect hw
  have hlock' := hlock.effect hw hE
  refine ⟨fun p hl => ?_, fun p hl hm => ?_⟩
  · by_cases hp : k.Live p
    · rw [first_effect hw hE hp hl, Process.holds, (hw.sameRole hE (hw.le hp)).perm_mask]
      exact h.holders p hp
    rcases created hw hE hp hl with hn | hn
    · refine iff_of_false (fun hh => ?_) (hn.not_first hw hE)
      -- it was given `PPERM_PERM`, and by a holder, so by the first process, which does not
      obtain ⟨path, uses_console, rfl⟩ := hn.action
      have hm : (k'.procs p).perm_mask ≠ 0 := fun h0 => by simp [Process.holds, h0] at hh
      have hfirst := (h.holders _ (hw.running (hS.1.runs rfl))).1 (hn.holds hm)
      have hkeep : (k'.procs p).perm_mask &&& PPERM_PERM = 0 := hC hfirst
      simp [Process.holds, hkeep] at hh
    · rw [hn.first_iff hw hlock' hE hl, Process.holds, hn.perm_mask]
      exact h.holders _ hn.owner
  · by_cases hp : k.Live p
    · rw [first_effect hw hE hp hl]
      rw [(hw.sameRole hE (hw.le hp)).perm_mask] at hm ⊢
      exact h.given p hp hm
    rcases created hw hE hp hl with hn | hn
    · obtain ⟨path, uses_console, rfl⟩ := hn.action
      exact .inr (hasks ((h.holders _ (hw.running (hS.1.runs rfl))).1 (hn.holds hm)))
    · rw [hn.first_iff hw hlock' hE hl]
      rw [hn.perm_mask] at hm ⊢
      exact h.given _ hn.owner hm

theorem first_sameData (hd : k.SameData k') : k'.First p ↔ k.First p := by
  unfold Kernel.First Kernel.handlers
  rw [Set.mem_ofPred_eq, Set.mem_ofPred_eq, hd.sameLinks.live, hd.sameLinks.queue_base, hd.procs]

/-- Confinement is about processes only. -/
theorem Confined.sameData (h : Confined es k) (hd : k.SameData k') : Confined es k' := by
  refine ⟨fun p hl => ?_, fun p hl hm => ?_⟩
  · rw [hd.procs, first_sameData hd]
    exact h.holders p (hd.sameLinks.live.1 hl)
  · rw [hd.procs] at hm ⊢
    rw [first_sameData hd]
    exact h.given p (hd.sameLinks.live.1 hl) hm

theorem HandlersLocked.sameData (h : HandlersLocked k) (hd : k.SameData k') : HandlersLocked k' := by
  refine ⟨fun p hl hh => ?_, fun p hl hh => ?_⟩
  · rw [hd.procs] at hh ⊢
    exact h.rwlock p (hd.sameLinks.live.1 hl) hh
  · rw [hd.procs] at hh ⊢
    rw [hd.sameLinks.frontier]
    exact h.parent p (hd.sameLinks.live.1 hl) hh

/-- **One step**, when `PPERM_PERM` is not given away. -/
theorem Confined.step (hw : k.WellFormed) (hs : k.Spaced) (hlock : HandlersLocked k) (h : Confined es k)
    (hspares : m.Spares k) (hC : KeepsPerm k m) (hM : Moves k m k') :
    HandlersLocked k' ∧ Confined (es ++ [(k, m)]) k' := by
  rcases hM.step hw hs hspares with hd | ⟨ev, a, o, bytes, rfl, ha, hS⟩
  · exact ⟨hlock.sameData hd, (h.later _).sameData hd⟩
  have hd := k.sameData_refill bytes
  have hw' := hw.sameData hd
  have hasks : Move.asks k (.event ev) = a.asks := by
    rw [Move.asks, ha]
    rfl
  exact ⟨(hlock.sameData hd).effect hw' (hS.effect hw'), ((h.later _).sameData hd).acts hw' (hlock.sameData hd) hS
    (fun hf => hasks ▸ hC hf) fun hf => ⟨_, List.mem_append_right _ (List.mem_singleton.2 rfl), hf, hasks⟩⟩

theorem Booted.confined (h : Booted k) : Confined [] k := by
  have hfirst : ∀ p, k.Live p → k.First p := fun p hp => .inl ((h.live_eq hp).trans h.current_task)
  have hmask : ∀ p, k.Live p → (k.procs p).perm_mask = PPERM_SUPER_ADMIN := fun p hp => by
    rw [h.live_eq hp]
    exact h.perm_mask
  refine ⟨fun p hp => iff_of_true ?_ (hfirst p hp), fun p hp _ => .inl (hfirst p hp)⟩
  rw [Process.holds, hmask p hp]
  rfl

end Authority

/-! ### Results -/

/-- **In every run** each process in the queue is entitled to its permissions, from the first process on, as long as
no descriptor is stored to. -/
theorem entitled {k₀ k : Kernel} {es : List Moved} (h₀ : Started k₀)
    (h : Lib.Run (Lib.Logs Moves) (fun k e => e.2.Spares k) k₀ es k) :
    ∀ p, k.Live p → Entitled k₀.queue_base es p (k.procs p).perm_mask := by
  obtain ⟨hw₀, hb⟩ := h₀.booted
  refine (h.history (I := fun es k => (k.WellFormed ∧ k.Spaced) ∧
    ∀ p, k.Live p → Entitled k₀.queue_base es p (k.procs p).perm_mask) ⟨⟨hw₀, hb.spaced⟩, fun p hp => ?_⟩ ?_).2
  · have hp' := hb.live_eq hp
    have hm : (k₀.procs p).perm_mask = PPERM_SUPER_ADMIN := by
      rw [hp']
      exact hb.perm_mask
    rw [hm, hp', hb.current_task]
    exact .first
  · rintro es t u ⟨t', m⟩ ⟨⟨hw, hs⟩, hI⟩ hspares ⟨rfl, hM⟩
    exact ⟨hM.wellFormed hw hs hspares, fun p hl => entitled_step hw hs hspares hI hM hl⟩

/-- The first process spawns another with the console. -/
theorem entitled_console : ∃ k₀ es, ∃ k : Kernel, ∃ p, Started k₀ ∧ k.Live p ∧
    (k.procs p).perm_mask = PPERM_CONSOLE ∧ Entitled k₀.queue_base es p PPERM_CONSOLE := by
  obtain ⟨k, hk, hn⟩ := answers_iff.1 (show answers
    (storing Move.Spares 0x1000 0x90 [.event (.syscall (system_call 3 0 4 1 [97]))])
    (fun k => decide (k.Live k.queue_head ∧ (k.procs k.queue_head).perm_mask = PPERM_CONSOLE)) = true by decide +kernel)
  obtain ⟨hl, hm⟩ := of_decide_eq_true hn
  obtain ⟨k₀, h₀, h⟩ := storing_ok hk
  obtain ⟨es, hr, -⟩ := h.logs
  exact ⟨k₀, es, k, _, h₀, hl, hm, hm ▸ entitled h₀ hr _ hl⟩

/-- **In every run in which the first process keeps `PPERM_PERM`**, and no descriptor is stored to, every permission
comes from it. -/
theorem confined_to_first {k₀ k : Kernel} {es : List Moved} (h₀ : Started k₀)
    (h : Lib.Run (Lib.Logs Moves) (fun k e => e.2.Spares k ∧ KeepsPerm k e.2) k₀ es k) : Confined es k := by
  obtain ⟨hw₀, hb⟩ := h₀.booted
  refine (h.history (I := fun es k => (k.WellFormed ∧ k.Spaced) ∧ HandlersLocked k ∧ Confined es k)
    ⟨⟨hw₀, hb.spaced⟩, hb.handlersLocked, hb.confined⟩ ?_).2.2
  rintro es t u ⟨t', m⟩ ⟨⟨hw, hs⟩, hlock, hI⟩ ⟨hspares, hC⟩ ⟨rfl, hM⟩
  exact ⟨hM.wellFormed hw hs hspares, hI.step hw hs hlock hspares hC hM⟩

/-- The first process spawns another with the console, which spawns a third with nothing and stores a byte. -/
theorem confined_to_first_console : ∃ k₀ es k, Started k₀ ∧
    Lib.Run (Lib.Logs Moves) (fun k e => e.2.Spares k ∧ KeepsPerm k e.2) k₀ es k ∧ k.queue.length = 3 ∧
      Confined es k := by
  obtain ⟨k, hk, hn⟩ := answers_iff.1 (show answers
    (storing (fun k m => m.Spares k ∧ KeepsPerm k m) 0x1000 0x90
      [.event (.syscall (system_call 3 0 12 1 [97])), .event (.timer quietTick),
        .event (.syscall (system_call 3 0 0 1 [97])), .store 0x1000 0xff])
    (fun k => decide (k.queue.length = 3)) = true by decide +kernel)
  obtain ⟨k₀, h₀, h⟩ := storing_ok hk
  obtain ⟨es, hr, -⟩ := h.logs
  exact ⟨k₀, es, k, h₀, hr, of_decide_eq_true hn, confined_to_first h₀ hr⟩

end Iridium
