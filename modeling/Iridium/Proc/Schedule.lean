import Iridium.Proc.Parents
import Iridium.Lib.RoundRobin

/-!
# Who runs next

The timer gives the processor to the process that the running one points at. Read from there on,
the queue is the order in which the processes get it: the process that does goes to the end, a new
one comes in before the first process of the queue, and one that is killed leaves, also when the
processor still spins in its name and follows its link once more. So the switches are a round robin
(`Ordered.step`), and between two turns of a process every other one has its turn once
(`scheduled_round_robin`).
-/

namespace Iridium

/-- The process that an entry gives the processor to, if it does. -/
def resumed_by (e : Entry) : Option ℕ :=
  match e.2.1 with
  | .timer t => some (irq0_isr e.1 t).1.current_task
  | _ => none

/-- **The order** in which the processes get the processor: the queue, read from the next one on. -/
def Ordered (k : Kernel) (l : List ℕ) : Prop :=
  ∃ l₁ l₂, k.queue = l₁ ++ next_running k :: l₂ ∧ l = next_running k :: (l₂ ++ l₁)

section Order

variable {k k' : Kernel} {a : Action} {o : UInt64} {l : List ℕ}

theorem Ordered.mem_iff (h : Ordered k l) {p : ℕ} : p ∈ l ↔ k.Live p := by
  obtain ⟨l₁, l₂, hq, rfl⟩ := h
  unfold Kernel.Live
  rw [hq, List.mem_append, ← List.cons_append, List.mem_append, or_comm]

theorem Ordered.nodup (hw : k.WellFormed) (h : Ordered k l) : l.Nodup := by
  obtain ⟨l₁, l₂, hq, rfl⟩ := h
  have hnd := hw.linked.ring.nodup
  rw [hq] at hnd
  rw [← List.cons_append]
  exact List.perm_append_comm.nodup_iff.1 hnd

/-- There is an order. -/
theorem Kernel.WellFormed.ordered (hw : k.WellFormed) : ∃ l, Ordered k l := by
  obtain ⟨l₁, l₂, hq⟩ := List.append_of_mem hw.next_live
  exact ⟨_, l₁, l₂, hq, rfl⟩

/-- The two parts of the queue the other way round, when that begins with the next process. -/
theorem ordered_of_split {l₁ l₂ : List ℕ} (hq : k.queue = l₁ ++ l₂)
    (hh : (l₂ ++ l₁).head? = some (next_running k)) : Ordered k (l₂ ++ l₁) := by
  cases l₂ with
  | nil =>
    cases l₁ with
    | nil => simp at hh
    | cons n l₁ =>
      obtain rfl : n = next_running k := by simpa using hh
      exact ⟨[], l₁, by simpa using hq, by simp⟩
  | cons n l₂ =>
    obtain rfl : n = next_running k := by simpa using hh
    exact ⟨l₁, l₂, hq, rfl⟩

/-- Links that stay, and the same process running. -/
theorem Ordered.same (h : Ordered k l) (hs : k.SameLinks k') (hc : k'.current_task = k.current_task) :
    Ordered k' l := by
  have hn : next_running k' = next_running k := by
    unfold next_running Kernel.current
    rw [hc, hs.next]
  unfold Ordered
  rw [hn, hs.queue]
  exact h

/-- **A timer interrupt** is the turn of the first. -/
theorem Ordered.timer (hw : k.WellFormed) (h : Ordered k l) (t : Tick) :
    ∃ l', Lib.RoundRobin.Turn l (some (next_running k)) l' ∧ Ordered (irq0_isr k t).1 l' := by
  obtain ⟨l₁, l₂, hq, rfl⟩ := h
  have hs := Kernel.sameLinks_timer k t
  have hnext : next_running (irq0_isr k t).1 = (k.procs (next_running k)).next := by
    unfold next_running Kernel.current
    rw [hs.next, irq0_isr_fst]
    rfl
  refine ⟨_, .turn, ?_⟩
  rw [List.append_assoc]
  refine ordered_of_split ?_ ?_
  · rw [hs.queue, hq, List.append_assoc]
    rfl
  · rw [hnext]
    exact hw.linked.ring.next_around hq

/-- **A process that comes in** does so before the first of the queue. -/
theorem Ordered.link {rip : UInt64} {path : List UInt8} {p : ℕ} {ctx : ℕ → UInt64} {mm : Mm} {q : Process}
    (hw : k.WellFormed) (h : Ordered k l) (hs : Spawned k rip path p ctx mm) (hn : q.next = k.queue_base)
    (hv : q.prev = k.queue_head) :
    ∃ l', Lib.RoundRobin.Turn l none l' ∧ Ordered (k.link p q mm) l' := by
  have hmem := h.mem_iff (p := p)
  have hfresh : p ∉ l := fun hp => Kernel.fresh_ne hs (hw.le (hmem.1 hp)) rfl
  obtain ⟨l₁, l₂, hq, rfl⟩ := h
  have hqueue := hw.queue_link hs hn hv
  by_cases hh : k.current_task = k.queue_head
  · -- the running process is the last: the new one is next, and the first after it
    have hclose : next_running k = k.queue_base := by
      unfold next_running Kernel.current
      rw [hh]
      exact hw.linked.ring.close
    have hl₁ : l₁ = [] := by
      cases l₁ with
      | nil => rfl
      | cons c l₁ =>
        have hf := hw.linked.ring.first
        have hnd := hw.linked.ring.nodup
        rw [hq] at hf hnd
        obtain rfl : c = k.queue_base := by simpa using hf
        rw [hclose] at hnd
        simp at hnd
    subst hl₁
    have hp : k.queue_head ≠ p := Kernel.fresh_ne hs (hw.le hw.head_live)
    have hnext : next_running (k.link p q mm) = p := by
      show ((k.link p q mm).procs k.current_task).next = _
      rw [hh, Kernel.link_procs_head hp]
    rw [List.append_nil] at hfresh ⊢
    refine ⟨[p] ++ next_running k :: l₂, @Lib.RoundRobin.Turn.join ℕ _ p [] _ hfresh, ?_⟩
    refine ordered_of_split (by rw [hqueue, hq]; rfl) ?_
    rw [hnext]
    rfl
  · have hnext : next_running (k.link p q mm) = next_running k := hw.next_running_link hs hh
    rw [← List.cons_append] at hfresh ⊢
    refine ⟨_, .join hfresh, l₁, l₂ ++ [p], ?_, ?_⟩
    · rw [hqueue, hq, hnext]
      simp
    · rw [hnext]
      simp

/-- **A process that is killed** leaves. -/
theorem Ordered.killed (hw : k.WellFormed) (h : Ordered k l) (hl : k.Live k.current_task)
    (hr : refused k k.current.pid = false) (hu : SolePid k k.queue k.current_task) (pmm : Pmm) :
    ∃ l', Lib.RoundRobin.Turn l none l' ∧ Ordered (killed k k.current_task pmm) l' := by
  obtain ⟨l₁, l₂, hq, rfl⟩ := h
  have hb := hw.ne_base hr
  have hqueue : (Iridium.killed k k.current_task pmm).queue = k.queue.erase k.current_task :=
    hw.queue_killed hl hr hu
  have hne : next_running k ≠ k.current_task := hw.linked.ring.next_ne hl hb
  have hnext : next_running (Iridium.killed k k.current_task pmm) = next_running k :=
    hw.next_running_killed hl hr
  have hnd := hw.linked.ring.nodup
  refine ⟨_, .leave k.current_task, ?_⟩
  unfold Ordered
  rw [hqueue, hnext, List.erase_cons_tail (by simpa using hne)]
  by_cases h₁ : k.current_task ∈ l₁
  · have h₂ : k.current_task ∉ l₂ := fun h₂ => by
      rw [hq, List.nodup_append] at hnd
      exact hnd.2.2 _ h₁ _ (List.mem_cons_of_mem _ h₂) rfl
    refine ⟨l₁.erase k.current_task, l₂, ?_, ?_⟩
    · rw [hq, List.erase_append, if_pos h₁]
    · rw [List.erase_append, if_neg h₂]
  · have h₂ : k.current_task ∈ l₂ := by
      have hm : k.current_task ∈ k.queue := hl
      rw [hq] at hm
      exact (List.mem_cons.1 ((List.mem_append.1 hm).resolve_left h₁)).resolve_left (Ne.symm hne)
    refine ⟨l₁, l₂.erase k.current_task, ?_, ?_⟩
    · rw [hq, List.erase_append, if_neg h₁, List.erase_cons_tail (by simpa using hne)]
    · rw [List.erase_append, if_pos h₂]

/-- **Every step** is a step of the round robin. -/
theorem Ordered.step (hw : k.WellFormed) (h : Ordered k l) (hS : Step k (a, o) k') :
    ∃ l', Lib.RoundRobin.Turn l (resumed_by (k, a, o)) l' ∧ Ordered k' l' := by
  have hE := hS.effect hw
  by_cases ha : ∃ t, a = .timer t
  · obtain ⟨t, rfl⟩ := ha
    have hcur : (irq0_isr k t).1.current_task = next_running k := by rw [irq0_isr_fst]
    have hr : resumed_by (k, .timer t, o) = some (next_running k) := by
      unfold resumed_by
      simp only [hcur]
    rw [hr, hE.timer_eq]
    exact h.timer hw t
  · have hr : resumed_by (k, a, o) = none := by
      unfold resumed_by
      split
      next t he => exact absurd ⟨t, he⟩ ha
      next => rfl
    rw [hr]
    cases hE with
    | quiet hq => exact ⟨l, .stay, h.same hq.sameLinks hq.current_task⟩
    | read => exact ⟨l, .stay, h.same (Kernel.sameLinks_read k) (Kernel.current_read k).1⟩
    | hook => exact ⟨l, .stay, h.same (Kernel.sameLinks_hook k _) rfl⟩
    | queued => exact ⟨l, .stay, h.same (Kernel.sameLinks_deliver k _ _ _) rfl⟩
    | handled _ _ _ hs => exact (h.same (Kernel.sameLinks_deliver k _ _ _) rfl).link (hw.deliver _ _ _) hs rfl rfl
    | spawned _ hs => exact h.link hw hs rfl rfl
    | exited _ hs hrf hu => exact h.killed hw (hw.running hs) hrf hu _
    | timer => exact absurd ⟨_, rfl⟩ ha

/-- Who is in the queue was there before, if it was there at all. -/
theorem live_back (hw : k.WellFormed) (hS : Step k (a, o) k') {p : ℕ} (hp : p ≤ k.frontier)
    (hl : k'.Live p) : k.Live p := by
  by_contra hn
  rcases created hw (hS.effect hw) hn hl with hc | hc
  · exact absurd hp (Nat.not_le.2 hc.fresh)
  · exact absurd hp (Nat.not_le.2 hc.fresh)

/-- A process that was there at both ends of a run was there all the time. -/
theorem live_throughout {C : Kernel → Entry → Prop} {es : List Entry} {p : ℕ} (hw : k.WellFormed)
    (h : Lib.Run Logged C k es k') (hp : p ≤ k.frontier) (hl : k'.Live p) :
    Lib.Run Logged (fun k e => C k e ∧ k.Live p) k es k' := by
  suffices k'.WellFormed ∧ k.frontier ≤ k'.frontier ∧
      (k'.Live p → Lib.Run Logged (fun k e => C k e ∧ k.Live p) k es k') from this.2.2 hl
  clear hl
  induction h with
  | nil => exact ⟨hw, Nat.le_refl _, fun _ => .nil⟩
  | @snoc es t u e _ hC hS ih =>
    obtain ⟨hw', hle, ih⟩ := ih
    obtain ⟨rfl, hS⟩ := hS
    refine ⟨hS.wellFormed hw', hle.trans (frontier_le (hS.effect hw')), fun hl => ?_⟩
    have hlive := live_back hw' hS (hp.trans hle) hl
    exact (ih hlive).snoc ⟨hC, hlive⟩ ⟨rfl, hS⟩

/-- **A run** is a run of the round robin. -/
theorem Ordered.run {x y : ℕ} {es : List Entry} (hw : k.WellFormed) (h : Ordered k l)
    (hr : Lib.Run Logged (fun k e => k.Live x ∧ e.1.Live y ∧ resumed_by e ≠ some x) k es k') :
    ∃ l', Lib.Run Lib.RoundRobin.Turn (fun l e => x ∈ l ∧ y ∈ l ∧ e ≠ some x) l (es.map resumed_by) l' ∧
      Ordered k' l' ∧ k'.WellFormed := by
  induction hr with
  | nil => exact ⟨l, .nil, h, hw⟩
  | @snoc es t u e _ hC hS ih =>
    obtain ⟨l', hrun, ho, hw'⟩ := ih
    obtain ⟨rfl, hS⟩ := hS
    obtain ⟨l'', hT, ho'⟩ := ho.step hw' hS
    refine ⟨l'', ?_, ho', hS.wellFormed hw'⟩
    rw [List.map_append]
    exact hrun.snoc ⟨ho.mem_iff.2 hC.1, ho.mem_iff.2 hC.2.1, hC.2.2⟩ hT

end Order

/-! ### The states of the processes -/

/-- Every process but the running one is ready. -/
def OthersReady (k : Kernel) : Prop :=
  ∀ p, k.Live p → p ≠ k.current_task → (k.procs p).state = .PSTATE_READY

section States

variable {k k' : Kernel} {a : Action} {o : UInt64}

/-- **After a switch** the running process is the only one that is not ready. -/
theorem OthersReady.timer (h : OthersReady k) (t : Tick) {p : ℕ} (hp : (irq0_isr k t).1.Live p) :
    ((irq0_isr k t).1.procs p).state =
      if p = (irq0_isr k t).1.current_task then .PSTATE_RUNNING else .PSTATE_READY := by
  have hcur : (irq0_isr k t).1.current_task = next_running k := by rw [irq0_isr_fst]
  have hlive : k.Live p := (Kernel.sameLinks_timer k t).live.1 hp
  rw [irq0_isr_procs, hcur]
  dsimp only
  split
  · rfl
  split
  · rfl
  next hc => exact h p hlive hc

theorem OthersReady.step (hw : k.WellFormed) (h : OthersReady k) (hS : Step k (a, o) k') : OthersReady k' := by
  have hE := hS.effect hw
  intro p hp hne
  by_cases ha : ∃ t, a = .timer t
  · obtain ⟨t, rfl⟩ := ha
    rw [hE.timer_eq] at hp hne ⊢
    rw [h.timer t hp, if_neg hne]
  · have ha' : ∀ t, a ≠ .timer t := fun t he => ha ⟨t, he⟩
    by_cases hl : k.Live p
    · rw [(hw.unscheduled hE (hw.le hl) ha').1]
      rw [current_task_eq hE ha'] at hne
      exact h p hl hne
    · exact (created_ready hw hE hl hp).2

end States

/-! ### Results -/

/-- **A round robin**: between two turns of a process every other process that is in the queue all
the time has its turn exactly once; and after each switch the process that has its turn is running
and all the others are ready. -/
structure RoundRobin (es : List Entry) (k : Kernel) : Prop where
  once : ∀ es₁ e₁ es₂ e₂ es₃ x y, es = es₁ ++ e₁ :: (es₂ ++ e₂ :: es₃) →
    resumed_by e₁ = some x → resumed_by e₂ = some x → (∀ e ∈ es₂, resumed_by e ≠ some x) →
    y ≠ x → (∀ e ∈ es₂ ++ [e₂], e.1.Live y) → (es₂.map resumed_by).count (some y) = 1
  states : ∀ es' e, es = es' ++ [e] → resumed_by e ≠ none →
    k.Live k.current_task ∧ ∀ p, k.Live p →
      (k.procs p).state = if p = k.current_task then .PSTATE_RUNNING else .PSTATE_READY

/-- In every run all are ready but the running one. -/
theorem scheduled {k₀ k : Kernel} {es : List Entry} (h₀ : Started k₀)
    (h : Lib.Run Logged (fun k e => Always k e.2) k₀ es k) : k.WellFormed ∧ OthersReady k := by
  obtain ⟨hw, hb⟩ := h₀.booted
  refine h.invariant (I := fun k => k.WellFormed ∧ OthersReady k) ⟨hw, fun p hp hne => ?_⟩ ?_
  · exact absurd (hb.live_eq hp) hne
  · rintro k k' ⟨_, a, o⟩ hI - ⟨rfl, hS⟩
    exact ⟨hS.wellFormed hI.1, hI.2.step hI.1 hS⟩

/-- Who is resumed was the first, and is the last from then on. -/
theorem Ordered.resumed {k k' : Kernel} {a : Action} {o : UInt64} {l : List ℕ} {x : ℕ} (hw : k.WellFormed)
    (h : Ordered k l) (hS : Step k (a, o) k') (hx : resumed_by (k, a, o) = some x) :
    ∃ m, l = x :: m ∧ Ordered k' (m ++ [x]) := by
  obtain ⟨l', hT, ho⟩ := h.step hw hS
  rw [hx] at hT
  cases hT with
  | turn => exact ⟨_, rfl, ho⟩

/-- **Between two turns** of a process every other one that stays has its turn exactly once. -/
theorem once_between {k₁ k₂ k₃ k₄ : Kernel} {C : Kernel → Entry → Prop} {a₁ a₂ : Action} {o₁ o₂ : UInt64}
    {es : List Entry} {x y : ℕ} (hw : k₁.WellFormed) (h₁ : Step k₁ (a₁, o₁) k₂)
    (h : Lib.Run Logged C k₂ es k₃) (h₂ : Step k₃ (a₂, o₂) k₄)
    (hx₁ : resumed_by (k₁, a₁, o₁) = some x) (hx₂ : resumed_by (k₃, a₂, o₂) = some x)
    (hno : ∀ e ∈ es, resumed_by e ≠ some x) (hne : y ≠ x) (hy₂ : k₂.Live y) (hy₃ : k₃.Live y)
    (hy : ∀ e ∈ es, e.1.Live y) : (es.map resumed_by).count (some y) = 1 := by
  have hw₂ := h₁.wellFormed hw
  obtain ⟨l₁, ho₁⟩ := hw.ordered
  obtain ⟨m, rfl, ho₂⟩ := ho₁.resumed hw h₁ hx₁
  have hw₃ : k₃.WellFormed := h.invariant (I := Kernel.WellFormed) hw₂ fun {t u e} hI _ hS => by
    obtain ⟨rfl, hS⟩ := hS
    exact hS.wellFormed hI
  obtain ⟨l₃, ho₃⟩ := hw₃.ordered
  have hx₃ : k₃.Live x := by
    obtain ⟨m', rfl, -⟩ := ho₃.resumed hw₃ h₂ hx₂
    exact ho₃.mem_iff.1 (List.mem_cons_self ..)
  have hle : x ≤ k₂.frontier := hw₂.le (ho₂.mem_iff.1 (by simp))
  have hall : ∀ e ∈ es, e.1.Live y ∧ resumed_by e ≠ some x := fun e he => ⟨hy e he, hno e he⟩
  obtain ⟨l', hrun, ho, -⟩ := ho₂.run hw₂
    (((live_throughout hw₂ h hle hx₃).and_mem hall).mono fun _ _ hC => ⟨hC.1.2, hC.2⟩)
  obtain ⟨m', rfl, -⟩ := ho.resumed hw₃ h₂ hx₂
  exact Lib.RoundRobin.count_eq_one (ho₂.nodup hw₂) hne (ho₂.mem_iff.2 hy₂) hrun (ho.mem_iff.2 hy₃)

/-- **In every run** the processes take turns. -/
theorem scheduled_round_robin {k₀ k : Kernel} {es : List Entry} (h₀ : Started k₀)
    (h : Lib.Run Logged (fun k e => Always k e.2) k₀ es k) : RoundRobin es k := by
  constructor
  · rintro es₁ ⟨ka, a₁, o₁⟩ es₂ ⟨kc, a₂, o₂⟩ es₃ x y hes h₁ h₂ hno hne hy
    obtain ⟨_, ha, hr⟩ := h.split hes
    obtain ⟨kb, -, ⟨rfl, hS₁⟩, hrest⟩ := hr.cons_split rfl
    obtain ⟨_, hb, hlast⟩ := hrest.split rfl
    obtain ⟨kd, -, ⟨rfl, hS₂⟩, -⟩ := hlast.cons_split rfl
    have hyc : kc.Live y := hy (kc, a₂, o₂) (by simp)
    have hyb : kb.Live y := by
      cases es₂ with
      | nil => exact (hb.of_nil rfl).symm ▸ hyc
      | cons e es₂ =>
        obtain ⟨_, -, ⟨he, -⟩, -⟩ := hb.cons_split rfl
        rw [← he]
        exact hy e (by simp)
    exact once_between (scheduled h₀ ha).1 hS₁ hb hS₂ h₁ h₂ hno hne hyb hyc
      fun e he => hy e (List.mem_append_left _ he)
  · rintro es' ⟨ka, a, o⟩ hes hr
    obtain ⟨_, ha, hl⟩ := h.split hes
    obtain ⟨kb, -, ⟨rfl, hS⟩, hn⟩ := hl.cons_split rfl
    obtain rfl : kb = k := hn.of_nil rfl
    have hI := scheduled h₀ ha
    have hE := hS.effect hI.1
    have hT : ∃ t, a = .timer t := by
      by_contra hn
      apply hr
      unfold resumed_by
      split
      next t he => exact absurd ⟨t, he⟩ hn
      next => rfl
    obtain ⟨t, rfl⟩ := hT
    have hw := hS.wellFormed hI.1
    rw [hE.timer_eq] at hw ⊢
    have hcur : (irq0_isr ka t).1.current_task = next_running ka := by rw [irq0_isr_fst]
    refine ⟨?_, fun p hp => hI.2.timer t hp⟩
    rw [hcur]
    exact (Kernel.sameLinks_timer ka t).live.2 hI.1.next_live

/-- Three processes take turns, a signal handler comes in and one of them leaves. -/
theorem scheduled_round_robin_three : ∃ k₀ es k, Started k₀ ∧
    Lib.Run Logged (fun k e => Always k e.2) k₀ es k ∧ k.queue.length = 3 ∧ RoundRobin es k := by
  obtain ⟨es, k, ⟨k₀, h₀, h⟩, hn⟩ := traces_true Always (fun k => k.queue.length == 3)
    [.initrd_spawn [65] 0 1, .initrd_spawn [65] 0 1, .timer quietTick, .timer quietTick, .psignal_hook 0x5000,
      .psignal_send 1 0, .timer quietTick, .exit, .timer quietTick]
    (by decide +kernel)
  obtain ⟨fs, hr, -⟩ := logged h
  exact ⟨k₀, fs, k, h₀, hr, beq_iff_eq.1 hn, scheduled_round_robin h₀ hr⟩

end Iridium
