import Iridium.Proc.Spared

/-!
# Permissions

A permission comes from the first process, which has them all. From there it reaches another
process in three ways: a caller of `_initrd_spawn` that holds `PPERM_PERM` names it, a signal
handler gets the mask of the process it handles signals for, or a process keeps it. Without a
holder of `PPERM_PERM` among the callers only the last two are left, and they make no
permission that no live process had.

There is a fourth way: a store of the loader, or of a program, to a descriptor. Whoever may spawn
a file whose segment lies on its own `perm_mask` gives itself what the file says.
-/

namespace Iridium

/-- **No permission is given**: who stays keeps its mask, and a new process has none, made by
a holder of `PPERM_INITRD`, or is a signal handler with the mask of its process. -/
structure NoneGiven (k k' : Kernel) : Prop where
  kept : ∀ p, k.Live p → k'.Live p → (k'.procs p).perm_mask = (k.procs p).perm_mask
  created : ∀ p, ¬k.Live p → k'.Live p →
    ((k'.procs p).isHandler = false ∧ (k'.procs p).perm_mask = 0 ∧
      k.current.holds PPERM_INITRD = true) ∨ Handles k k' p

/-- The permissions that live processes hold, as bits of `perm_mask`. -/
def permissions_held (k : Kernel) : Set ℕ :=
  { i | ∃ p, k.Live p ∧ (k.procs p).perm_mask.toNat.testBit i = true }

/-- No holder of `PPERM_PERM` makes a system call. -/
def Unprivileged (k : Kernel) (m : Move) : Prop :=
  ∀ c, m = .event (.syscall c) → k.current.holds PPERM_PERM = false

instance (k : Kernel) : DecidablePred (Unprivileged k)
  | .event (.syscall c) => decidable_of_iff (k.current.holds PPERM_PERM = false) ⟨fun h _ _ => h, fun h => h c rfl⟩
  | .event .fault | .event (.timer _) | .event (.keyboard _ _) | .store _ _ => .isTrue fun _ h => by cases h

section Perm

variable {k k' : Kernel} {m : Move}

/-- A file is spawned by a holder of `PPERM_INITRD` only. -/
theorem holds_initrd {e : Event} {path : List UInt8} {permissions : PPERM_T} {uses_console : UInt8}
    (h : e.action k = some (.initrd_spawn path permissions uses_console)) :
    (∃ c, e = .syscall c) ∧ k.current.holds PPERM_INITRD = true := by
  cases e with
  | syscall c =>
    refine ⟨⟨c, rfl⟩, ?_⟩
    by_contra hn
    simp only [Event.action, hn] at h
    split at h <;> simp at h
  | _ => simp [Event.action] at h

/-- **What a caller without `PPERM_PERM`, an interrupt or a store** does gives no permission. -/
theorem Moves.noneGiven (hw : k.WellFormed) (hs : k.Spaced) (hspares : m.Spares k) (hC : Unprivileged k m)
    (h : Moves k m k') : NoneGiven k k' := by
  rcases h.step hw hs hspares with hd | ⟨e, a, o, bytes, rfl, ha, hS⟩
  · exact ⟨fun p _ _ => by rw [hd.procs], fun p hn hl => absurd (hd.sameLinks.live.1 hl) hn⟩
  have hw' := hw.sameData (k.sameData_refill bytes)
  have hE := hS.effect hw'
  refine ⟨fun p hl _ => (hw'.sameRole hE (hw'.le hl)).perm_mask, fun p hn hl => ?_⟩
  rcases created hw' hE hn hl with hl | hh
  · obtain ⟨path, uses_console, rfl⟩ := hl.action
    obtain ⟨⟨c, rfl⟩, hi⟩ := holds_initrd ha
    have hd := hl.granted
    have hperm : (k.refill bytes).current.holds PPERM_PERM = false := hC c rfl
    simp only [denied, hperm] at hd
    exact .inl ⟨hl.not_handler, by simpa using hd, hi⟩
  · exact .inr hh.of_refill

/-- No permission is given, so none is made. -/
theorem NoneGiven.held (h : NoneGiven k k') : permissions_held k' ⊆ permissions_held k := by
  rintro i ⟨p, hl, hi⟩
  by_cases hp : k.Live p
  · exact ⟨p, hp, by rwa [← h.kept p hp hl]⟩
  rcases h.created p hp hl with ⟨-, hm, -⟩ | hh
  · rw [hm] at hi
    simp at hi
  · exact ⟨_, hh.owner, by rwa [← hh.perm_mask]⟩

end Perm

/-- **Permissions never grow** along a run in which no holder of `PPERM_PERM` makes a system call, and no system
call of another process gives any, as long as no descriptor is stored to. -/
theorem permissions_never_grow {k₀ k k' : Kernel} {ms ns : List Move} (h₀ : Started k₀)
    (h : Lib.Run Moves Move.Spares k₀ ms k)
    (h' : Lib.Run Moves (fun k m => m.Spares k ∧ Unprivileged k m) k ns k') :
    permissions_held k' ⊆ permissions_held k ∧
      ∀ c k'', k'.current.holds PPERM_PERM = false → (Move.event (.syscall c)).Spares k' →
        Moves k' (.event (.syscall c)) k'' → NoneGiven k' k'' := by
  have hk := h₀.moves h fun _ _ hm => hm
  obtain ⟨⟨hw, hs⟩, hsub⟩ : (k'.WellFormed ∧ k'.Spaced) ∧ permissions_held k' ⊆ permissions_held k :=
    h'.invariant (I := fun t => (t.WellFormed ∧ t.Spaced) ∧ permissions_held t ⊆ permissions_held k)
      ⟨hk, fun _ h => h⟩ fun hI hC hS => ⟨hS.wellFormed hI.1.1 hI.1.2 hC.1,
        fun _ hi => hI.2 ((hS.noneGiven hI.1.1 hI.1.2 hC.1 hC.2).held hi)⟩
  exact ⟨hsub, fun c k'' hl hspares hS => hS.noneGiven hw hs hspares fun _ _ => hl⟩

/-- The first process installs a callback and spawns a second with `PPERM_INITRD`; the second spawns a third, stores
a byte to its own segment, and sends the first a signal, which is handled with all permissions. -/
theorem permissions_never_grow_handled : ∃ k₀ ms k ns k' c k'', Started k₀ ∧ Lib.Run Moves Move.Spares k₀ ms k ∧
    Lib.Run Moves (fun k m => m.Spares k ∧ Unprivileged k m) k ns k' ∧ permissions_held k' ⊆ permissions_held k ∧
      k''.queue.length = 4 ∧ k''.head.perm_mask = PPERM_SUPER_ADMIN ∧ Moves k' (.event (.syscall c)) k'' ∧
        NoneGiven k' k'' := by
  have hrun : answers (do
      let k ← storing Move.Spares 0x1000 0x90
        [.event (.syscall (system_call 8 0x5000 0 0 [])), .event (.syscall (system_call 3 0 8 1 [97])),
          .event (.timer quietTick)]
      let k' ← moves (fun k m => m.Spares k ∧ Unprivileged k m) k
        [.event (.syscall (system_call 3 0 0 1 [97])), .store 0x1000 0xff]
      let k'' ← move k' (.event (.syscall (system_call 4 1 7 0 [])))
      return (k, k', k'')) (fun r => decide (r.2.1.spinning = false ∧ r.2.1.current.holds PPERM_PERM = false ∧
        (Move.event (.syscall (system_call 4 1 7 0 []))).Spares r.2.1 ∧ r.2.2.queue.length = 4 ∧
          r.2.2.head.perm_mask = PPERM_SUPER_ADMIN)) = true := by
    decide +kernel
  obtain ⟨t, ht, hb⟩ := answers_iff.1 hrun
  obtain ⟨k, hk, ht⟩ := bind_ok.1 ht
  obtain ⟨k', hk', ht⟩ := bind_ok.1 ht
  obtain ⟨k'', hk'', ht⟩ := bind_ok.1 ht
  obtain rfl := pure_ok.1 ht
  obtain ⟨hspin, hperm, hspares, hlength, hmask⟩ := of_decide_eq_true hb
  obtain ⟨k₀, h₀, h⟩ := storing_ok hk
  have h' := moves_ok hk'
  obtain ⟨hsub, hnone⟩ := permissions_never_grow h₀ h h'
  exact ⟨k₀, _, k, _, k', _, k'', h₀, h, h', hsub, hlength, hmask, ⟨hspin, hk''⟩,
    hnone _ k'' hperm hspares ⟨hspin, hk''⟩⟩

/-- A file spawned by the second process has its segment where that process has its permissions. -/
theorem not_permissions_never_grow : ¬∀ k₀ ms k c k'', Started k₀ → Lib.Run Moves (fun _ _ => True) k₀ ms k →
    k.current.holds PPERM_PERM = false → Moves k (.event (.syscall c)) k'' → NoneGiven k k'' := by
  have hrun : answers (do
      let k ← storing (fun _ _ => True) (UInt64.ofNat (second_descriptor + PERM_MASK_OFFSET)) 15
        [.event (.syscall (system_call 3 0 8 1 [97])), .event (.timer quietTick)]
      let k'' ← move k (.event (.syscall (system_call 3 0 0 1 [98])))
      return (k, k'')) (fun r => decide (r.1.spinning = false ∧ r.1.current.holds PPERM_PERM = false ∧
        r.1.Live second_descriptor ∧ r.2.Live second_descriptor ∧ (r.1.procs second_descriptor).perm_mask = 8 ∧
          (r.2.procs second_descriptor).perm_mask = 15)) = true := by
    decide +kernel
  intro hall
  obtain ⟨t, ht, hb⟩ := answers_iff.1 hrun
  obtain ⟨k, hk, ht⟩ := bind_ok.1 ht
  obtain ⟨k'', hk'', ht⟩ := bind_ok.1 ht
  obtain rfl := pure_ok.1 ht
  obtain ⟨hspin, hperm, hlive, hlive'', hmask, hmask''⟩ := of_decide_eq_true hb
  obtain ⟨k₀, h₀, h⟩ := storing_ok hk
  have hkept := (hall k₀ _ k _ k'' h₀ h hperm ⟨hspin, hk''⟩).kept _ hlive hlive''
  rw [hmask, hmask''] at hkept
  exact absurd hkept (by decide)

end Iridium
