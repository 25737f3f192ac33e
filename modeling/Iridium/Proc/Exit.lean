import Iridium.Proc.Pids
import Iridium.Proc.Asserts

/-!
# Leaving the queue

`kill` finds the process it kills by PID, refuses PIDs above the head's, and looks again
for the PID when it is done. So an exit unlinks the running process when the PIDs ascend
along the queue, and a run in which every new PID is above the head's keeps them so
(`InSequence`). A PID that is used again, or a negative one, makes an exit fail: it is
refused, or its last assertion fails.

The links themselves never go wrong: the queue is well formed in every state
(`Kernel.WellFormed.queueOk`).
-/

namespace Iridium

/-- **The queue is well formed**: following `next` from `queue_base` visits every process
once and comes back, `queue_head` is the last, and `prev` undoes `next` behind the base. -/
structure QueueOk (k : Kernel) : Prop where
  nodup : k.queue.Nodup
  base : k.queue.head? = some k.queue_base
  head : k.queue.getLast? = some k.queue_head
  follows : k.queue.IsChain fun p q => (k.procs p).next = q
  returns : (k.procs k.queue_head).next = k.queue_base
  back : ∀ p ∈ k.queue, p ≠ k.queue_base → (k.procs (k.procs p).prev).next = p

/-- No assertion fails, whatever happens next. -/
def AssertsHold (k : Kernel) : Prop := ∀ a, Enabled k a → NoAssert (act k a)

/-- The exit of a running process other than the first takes out that process and no other. -/
def ExitUnlinks (k : Kernel) : Prop :=
  k.spinning = false → k.current_task ≠ k.queue_base →
    ∃ k', exit k = .ok k' ∧ k'.queue = k.queue.erase k.current_task

/-- What became of the queue in a step: a process other than the first leaves it when it
exits or faults, a process that is made comes behind the head, and nothing else happens. -/
def Accounts (k : Kernel) (e : Action × UInt64) (k' : Kernel) : Prop :=
  k'.queue =
      (if e.1.exits = true ∧ k.current_task ≠ k.queue_base then k.queue.erase k.current_task
      else if spawns k e.1 = true then k.queue ++ [k'.queue_head]
      else k.queue) ∧
    (spawns k e.1 = true → k'.queue_head ∉ k.queue)

/-- `pmm_free` comes to an end: the index of its loop can reach the length of the map, or the
frame it looks for. -/
def FrameIndexed (k : Kernel) : Prop :=
  k.mm.vm.pmm.bitmap_length < 0x100000000 ∨
    (k.current.cr3 < 0x100000000 ∧ k.current.cr3 % 0x1000 = 0)

instance (k : Kernel) : Decidable (FrameIndexed k) := inferInstanceAs (Decidable (_ ∨ _))

/-- A process is made only while `next_pid` is above the head's PID, and a process other
than the first exits only when `pmm_free` comes to an end. -/
structure InSequence (k : Kernel) (e : Action × UInt64) : Prop where
  spawns : spawns k e.1 = true → k.head.pid < k.next_pid
  exits : e.1.exits = true → k.current_task ≠ k.queue_base → FrameIndexed k

instance (k : Kernel) (e : Action × UInt64) : Decidable (InSequence k e) :=
  decidable_of_iff
    ((spawns k e.1 = true → k.head.pid < k.next_pid) ∧
      (e.1.exits = true → k.current_task ≠ k.queue_base → FrameIndexed k))
    ⟨fun h => ⟨h.1, h.2⟩, fun h => ⟨h.spawns, h.exits⟩⟩

section Exit

variable {k k' : Kernel} {e : Action × UInt64}

theorem Kernel.WellFormed.queueOk (hw : k.WellFormed) : QueueOk k where
  nodup := hw.linked.ring.nodup
  base := hw.linked.ring.first
  head := hw.linked.ring.last
  follows := hw.linked.ring.chain.imp fun _ _ h => h.1
  returns := hw.linked.ring.close
  back p hp hb := by
    obtain ⟨l₁, l₂, hl⟩ := hw.linked.ring.split_of_ne hp hb
    exact (hw.linked.ring.next_eq hl).1

/-- With ascending PIDs only the first process is refused. -/
theorem Ascending.refused_iff (hw : k.WellFormed) (h : Ascending k) (hl : k.Live k.current_task) :
    refused k k.current.pid = true ↔ k.current_task = k.queue_base := by
  constructor
  · intro hr
    simp only [refused, Bool.or_eq_true, decide_eq_true_eq] at hr
    rcases hr with (hr | hr) | hr
    · exact h.inj hl hw.base_live (hr.trans hw.init.symm)
    · exact absurd (Int16.lt_trans (h.pos hw hl) hr) (Int16.lt_irrefl)
    · exact absurd (Int16.lt_of_le_of_lt (h.le_head hw hl) hr) (Int16.lt_irrefl)
  · intro hb
    have h1 : k.current.pid = 1 := by
      unfold Kernel.current
      rw [hb, hw.init]
    simp [refused, h1]

theorem Ascending.solePid (h : Ascending k) (hl : k.Live k.current_task) :
    SolePid k k.queue k.current_task := fun _ hr he => h.inj hr hl he

/-- **An exit** with ascending PIDs. -/
theorem Ascending.exitUnlinks (hw : k.WellFormed) (h : Ascending k) (hf : FrameIndexed k) :
    ExitUnlinks k := by
  intro hs hb
  have hl := hw.running hs
  have hr : refused k k.current.pid = false :=
    Bool.eq_false_iff.2 fun hr => hb ((h.refused_iff hw hl).1 hr)
  obtain ⟨pmm, hp⟩ := pmm_free_returns k.mm.vm.pmm hf
  refine ⟨killed k k.current_task pmm, ?_, hw.queue_killed hl hr (h.solePid hl)⟩
  rw [exit_eq hw.linked hw.init hl hr (h.solePid hl), hp]
  rfl

theorem Ascending.assertsHold (hw : k.WellFormed) (h : Ascending k) : AssertsHold k := by
  intro a he
  exact act_noAssert hw he fun ha => h.solePid (hw.running (he.not_spinning ha))

/-- A step with ascending PIDs accounts for every process. -/
theorem Ascending.accounts (hw : k.WellFormed) (h : Ascending k) (hS : Step k e k') :
    Accounts k e k' := by
  have hl : e.1.exits = true → k.Live k.current_task := fun ha => hw.running (hS.1.not_spinning ha)
  have hns : e.1.exits = true → spawns k e.1 = false := by
    intro ha
    cases he : e.1 <;> simp [he, Action.exits] at ha <;> rfl
  rcases hw.queue_effect (hS.effect hw) with ⟨ha, hr, hq⟩ | ⟨hs, hn, hq⟩ | ⟨hr, hs, hq⟩
  · have hb : k.current_task ≠ k.queue_base := hw.ne_base hr
    exact ⟨by rw [hq, if_pos ⟨ha, hb⟩], fun hs => by rw [hns ha] at hs; cases hs⟩
  · have ha : ¬(e.1.exits = true ∧ k.current_task ≠ k.queue_base) := fun ha => by
      rw [hns ha.1] at hs
      cases hs
    exact ⟨by rw [if_neg ha, if_pos hs, ← hq], fun _ => hn⟩
  · have ha : ¬(e.1.exits = true ∧ k.current_task ≠ k.queue_base) := fun ha =>
      ha.2 ((h.refused_iff hw (hl ha.1)).1 (hr ha.1))
    exact ⟨by rw [if_neg ha, if_neg (by simp [hs]), hq], fun h => by rw [hs] at h; cases h⟩

/-- The PIDs ascend in every run in sequence. -/
theorem RunsTo.ascending {es : List (Action × UInt64)} (h : RunsTo InSequence es k) : Ascending k :=
  h.invariant (fun _ hb => hb.ascending) fun hw h hC hE => h.effect hw hC.spawns hE

end Exit

/-- **In every run in sequence** the queue is well formed, no assertion fails, an exit takes
out the running process and no other, and every step accounts for the processes. -/
theorem exit_unlinks_in_sequence {es : List (Action × UInt64)} {k : Kernel}
    (h : RunsTo InSequence es k) :
    QueueOk k ∧ AssertsHold k ∧ (InSequence k (.exit, 0) → ExitUnlinks k) ∧
      ∀ e k', Step k e k' → Accounts k e k' := by
  have hw := h.wellFormed
  have ha := h.ascending
  refine ⟨hw.queueOk, ha.assertsHold hw, fun hx hs hb => ?_, fun e k' hS => ha.accounts hw hS⟩
  exact ha.exitUnlinks hw (hx.exits rfl hb) hs hb

/-- A process is spawned, runs and can exit. -/
theorem exit_unlinks_in_sequence_spawned : ∃ es k, RunsTo InSequence es k ∧
    k.current_task ≠ k.queue_base ∧ ∃ k', exit k = .ok k' ∧ k'.queue = k.queue.erase k.current_task := by
  obtain ⟨es, k, h, hn⟩ := traces_true InSequence
    (fun k => decide (InSequence k (.exit, 0) ∧ k.spinning = false ∧ k.current_task ≠ k.queue_base))
    [.initrd_spawn [65] 0 1, .timer quietTick] (by decide +kernel)
  obtain ⟨hx, hs, hb⟩ := of_decide_eq_true hn
  exact ⟨es, k, h, hb, (exit_unlinks_in_sequence h).2.2.1 hx hs hb⟩

/-- A process is spawned and exits, and the next one has the PID of the first process: its
exit is refused, and it stays in the queue. -/
theorem exit_does_not_unlink : ¬∀ es k, RunsTo Always es k →
    QueueOk k ∧ AssertsHold k ∧ ExitUnlinks k := by
  obtain ⟨es, k, h, hn⟩ := traces_true Always
    (fun k => decide (k.spinning = false ∧ k.current_task ≠ k.queue_base ∧
      refused k k.current.pid = true ∧ k.queue.erase k.current_task ≠ k.queue))
    [.initrd_spawn [65] 0 1, .timer quietTick, .exit, .timer quietTick,
      .initrd_spawn [65] 0 1, .timer quietTick] (by decide +kernel)
  obtain ⟨hs, hb, hr, hne⟩ := of_decide_eq_true hn
  intro hall
  obtain ⟨k', hk', hq⟩ := (hall es k h).2.2 hs hb
  rw [exit_refused hr] at hk'
  obtain rfl := Except.ok.inj hk'
  exact hne hq.symm

end Iridium
